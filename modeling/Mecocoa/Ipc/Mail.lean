import Mecocoa.Ipc.Message

/-! # Messages without links

What message passing is about: which thread has which message to send, who waits for
whom, and which messages were accepted, copied and reported as sent.  The links of the
queues, the scheduler and the threads that are still to be woken are left out.
-/

namespace Mecocoa.Ipc

open Function (update update_self update_of_ne update_apply)

structure Mail (n : Nat) where
  call : Fin n → Call n
  unsolved : Fin n → Unsolved n
  sendTo : Fin n → Option (Fin n)
  recvFrom : Fin n → Option (Source n)
  waitRupt : Fin n → Nat
  async : Fin n → List (Message n)
  -- The process of the thread is being removed; the thread is one that senders may wait for.
  dead : Fin n → Bool
  takes : Fin n → Bool
  nextId : Nat
  recvCalls : Fin n → Nat
  sendMapped : Nat → Bool
  recvMapped : Fin n → Nat → Bool
  sent : List (Message n)
  returned : List (Message n)
  copied : List (Copy n)

variable {n p : Nat}

/-- Senders may wait for the thread: it is not gone, and its process is no zombie. -/
def Comm.takesSends (s : Comm n p) (t : Fin n) : Bool :=
  !s.gone t && s.procState (s.process t) ≠ .hanging

def Comm.mail (s : Comm n p) : Mail n where
  call := s.call
  unsolved := s.unsolved
  sendTo := s.sendTo
  recvFrom := s.recvFrom
  waitRupt := s.waitRupt
  async := s.async
  dead := fun t => s.procState (s.process t) = .invalid
  takes := fun t => s.takesSends t
  nextId := s.nextId
  recvCalls := s.recvCalls
  sendMapped := s.sendMapped
  recvMapped := s.recvMapped
  sent := s.sent
  returned := s.returned
  copied := s.copied

def Call.IsSend : Call n → Prop
  | .send _ _ | .sendWake _ => True
  | _ => False

/-- The call waits for a message from this source. -/
def Call.Waits (foo : Source n) : Call n → Prop
  | .recv _ foo' | .drop foo' _ .block | .drop foo' _ .async => foo' = foo
  | _ => False

/-- What the steps of a run keep to. -/
structure Rules where
  -- No message is lost.
  careful : Prop
  -- No interrupt comes to a thread that waits for one but is not blocked yet.
  prompt : Prop
  -- No thread ends while senders wait for it.
  lasting : Prop
  -- No thread waits for itself to take a message.
  apart : Prop
  -- No asynchronous messages are thrown away.
  calm : Prop

theorem update_none_some {t target x : Fin n} (some' : update sendTo t none x = some target) :
    sendTo x = some target := by
  cases eq_or_ne x t with
  | inl same => simp [same] at some'
  | inr other => rwa [update_of_ne other] at some'

namespace Mail

/-- A message for the receive that begins, or for the one that waits. -/
def into (a : Mail n) (fresh : Bool) (r : Fin n) (m : Message n) : Mail n :=
  if fresh then
    { a with
      recvCalls := update a.recvCalls r (a.recvCalls r + 1)
      copied := a.copied ++ [⟨m, r, a.recvCalls r + 1⟩] }
  else
    { a with
      unsolved := update a.unsolved r .null
      recvFrom := update a.recvFrom r none
      copied := a.copied ++ [⟨m, r, a.recvCalls r⟩] }

/-- The receive that waits must still do so, if no message is to be lost. -/
def MayTake (rules : Rules) (a : Mail n) (fresh : Bool) (r : Fin n) : Prop :=
  ¬ (a.call r).IsSend ∧ if fresh then a.recvFrom r = none else rules.careful →
  a.recvFrom r ≠ none

def ForRupt (foo : Option (Source n)) : Prop := foo = some .any ∨ foo = some .intrupt

inductive Edit (rules : Rules) : Mail n → Mail n → Prop where
  /-- A send that waits goes on. -/
  | stage {a : Mail n} {t : Fin n} {stage : SendStage} {m : Message n} (stage' : SendStage)
      (is : a.call t = .send stage m) :
      Edit rules a { a with call := update a.call t (.send stage' m) }
  /-- A send returns 0. -/
  | finish {a : Mail n} {t : Fin n} {m : Message n}
      (done : a.call t = .send .look m ∧ a.unsolved t = .null ∨ a.call t = .sendWake m) :
      Edit rules a { a with call := update a.call t .none, returned := a.returned ++ [m] }
  /-- A send returns `-4`. -/
  | giveUp {a : Mail n} {t : Fin n} {stage : SendStage} {m : Message n}
    (is : a.call t = .send stage m) :
      Edit rules a { a with
        sendTo := update a.sendTo t none
        unsolved := update a.unsolved t .null
        call := update a.call t .none }
  /-- A receive goes on, ends or begins. -/
  | move {a : Mail n} {t : Fin n} (call : Call n) (before : ¬ (a.call t).IsSend)
    (after : ¬ call.IsSend)
      (waits : ∀ foo, a.recvFrom t = some foo → call.Waits foo) :
      Edit rules a { a with call := update a.call t call }
  | disarm {a : Mail n} {t : Fin n} (mark : Unsolved n) (free : a.sendTo t = none)
      (marked : mark = .dead ∨ mark = .null ∧ ¬ (a.call t).IsSend) :
      Edit rules a { a with
        unsolved := update a.unsolved t mark, recvFrom := update a.recvFrom t none }
  | deliver {a : Mail n} {m : Message n} (new : m.id = a.nextId) (idle : a.call m.src = .none)
      (armed : a.recvFrom m.dst = some (.thread m.src) ∨ a.recvFrom m.dst = some .any) :
      Edit rules a { a.into false m.dst m with
        call := update a.call m.src (.sendWake m)
        sent := if m.isAsync then a.sent ++ [m] else a.sent
        nextId := a.nextId + 1 }
  | post {a : Mail n} {m : Message n} (new : m.id = a.nextId) (idle : a.call m.src = .none)
      (isAsync : m.isAsync = true)
      (notArmed : ¬ (a.recvFrom m.dst = some (.thread m.src) ∨ a.recvFrom m.dst = some .any)) :
          Edit rules a { a with
        async := update a.async m.dst (a.async m.dst ++ [m])
        sent := a.sent ++ [m]
        returned := a.returned ++ [m]
        nextId := a.nextId + 1 }
  | queue {a : Mail n} {m : Message n} (new : m.id = a.nextId) (idle : a.call m.src = .none)
      (sync : m.isAsync = false) (takes : a.takes m.dst = true)
      (checked : willDeadlockFrom a.sendTo a.unsolved m.src (n + 1) m.dst = some false)
      (apart : rules.apart → m.src ≠ m.dst) : Edit rules a { a with
        sendTo := update a.sendTo m.src (some m.dst)
        unsolved := update a.unsolved m.src (.message m)
        call := update a.call m.src (.send .block m)
        nextId := a.nextId + 1 }
  | take {a : Mail n} {fo r : Fin n} {m : Message n} (fresh : Bool) (queued : a.sendTo fo = some r)
      (is : a.unsolved fo = .message m) (may : MayTake rules a fresh r) : Edit rules a ({ a with
        unsolved := update a.unsolved fo .null
        sendTo := update a.sendTo fo none }.into fresh r m)
  | takeAsync {a : Mail n} {r : Fin n} {foo : Source n} {m : Message n} (fresh : Bool)
      (found : (a.async r).find? foo.picks = some m) (may : MayTake rules a fresh r) :
      Edit rules a
        ({ a with async := update a.async r ((a.async r).eraseP foo.picks) }.into fresh r m)
  | beginRecv {a : Mail n} (r : Fin n) (idle : a.recvFrom r = none) :
      Edit rules a { a with recvCalls := update a.recvCalls r (a.recvCalls r + 1) }
  | arm {a : Mail n} {r : Fin n} {foo : Source n}
    (dropped : Option (Fin n)) (idle : ¬ (a.call r).IsSend)
      (notArmed : a.recvFrom r = none) (nothing : ∀ m ∈ a.async r, foo.picks m = false)
      (noRupt : ForRupt (some foo) → a.waitRupt r = 0) : Edit rules a { a with
        unsolved := update a.unsolved r .buffer
        recvFrom := update a.recvFrom r (some foo)
        recvCalls := update a.recvCalls r (a.recvCalls r + 1)
        call := update a.call r (.drop foo dropped .block) }
  /-- A sender is taken out of its queue and told so. -/
  | fail {a : Mail n} {t : Fin n} (queued : a.sendTo t ≠ none) :
      Edit rules a { a with
        sendTo := update a.sendTo t none, unsolved := update a.unsolved t .dead }
  /-- A sender is taken out of its queue as if its message had been taken. -/
  | release {a : Mail n} {t : Fin n} (queued : a.sendTo t ≠ none) (lossy : ¬ rules.careful) :
      Edit rules a { a with
        sendTo := update a.sendTo t none, unsolved := update a.unsolved t .null }
  | clearAsync {a : Mail n} (t : Fin n) (lossy : rules.careful → a.dead t = true)
    (wild : ¬ rules.calm) :
      Edit rules a { a with async := update a.async t [] }
  | recordRupt {a : Mail n} {t : Fin n}
    (ruptNo : Nat) (noted : rules.prompt → ¬ ForRupt (a.recvFrom t)) :
      Edit rules a { a with waitRupt := update a.waitRupt t ruptNo }
  | takeRupt {a : Mail n} (t : Fin n) : Edit rules a { a with waitRupt := update a.waitRupt t 0 }
  | reset {a : Mail n} {t : Fin n} (free : a.sendTo t = none) : Edit rules a { a with
        unsolved := update a.unsolved t .null
        recvFrom := update a.recvFrom t none
        call := update a.call t .none }
  /-- The buffers of a send and of a receive are noted. -/
  | buffers {a : Mail n} (sendMapped : Nat → Bool) (recvMapped : Fin n → Nat → Bool)
      (mapped : rules.careful → (∀ id, a.sendMapped id = true → sendMapped id = true) ∧
        ∀ t call, a.recvMapped t call = true → recvMapped t call = true) :
      Edit rules a { a with sendMapped, recvMapped }
  | status {a : Mail n} (dead takes : Fin n → Bool) (more : ∀ t, a.dead t = true →
    dead t = true)
      (lasting : rules.lasting → ∀ t target, a.sendTo t = some target →
      a.takes target = true → takes target = true) :
      Edit rules a { a with dead, takes }

/-- The fields of a thread agree with the call that it is in. -/
structure Fits (t : Fin n) (call : Call n) (unsolved : Unsolved n) (sendTo : Option (Fin n))
    (recvFrom : Option (Source n)) : Prop where
  sending : ∀ target, sendTo = some target → ∃ stage m, call = .send stage m ∧
    m.dst = target ∧ unsolved = .message m
  message : ∀ m, unsolved = .message m → sendTo = some m.dst
  armed : ∀ foo, recvFrom = some foo → unsolved = .buffer ∧ call.Waits foo
  own : ∀ m, (∃ stage, call = .send stage m) ∨ call = .sendWake m → m.src = t

def Ok (a : Mail n) : Prop := ∀ t, Fits t (a.call t) (a.unsolved t) (a.sendTo t) (a.recvFrom t)

variable {rules : Rules} {a b : Mail n} {t : Fin n} {call : Call n} {unsolved : Unsolved n}
  {sendTo : Option (Fin n)} {recvFrom : Option (Source n)}

theorem waits_not_send (waits : call.Waits foo) : ¬ call.IsSend := by
  cases call with
  | none => exact waits.elim
  | send stage m => exact waits.elim
  | sendWake m => exact waits.elim
  | recv stage foo => exact id
  | drop foo dropped after => exact id

variable (fits : Fits t call unsolved sendTo recvFrom)

include fits

theorem Fits.free (idle : ∀ stage m, call ≠ .send stage m) : sendTo = none := by
  cases queued : sendTo with
  | none => rfl
  | some target =>
    obtain ⟨stage, m, is, _⟩ := fits.sending target queued
    exact absurd is (idle stage m)

theorem Fits.free_of_not_send (other : ¬ call.IsSend) : sendTo = none :=
  fits.free fun _ _ is => other (is ▸ trivial)

theorem Fits.notArmed (idle : ∀ foo, ¬ call.Waits foo) : recvFrom = none := by
  cases armed : recvFrom with
  | none => rfl
  | some foo => exact absurd (fits.armed foo armed).2 (idle foo)

theorem Fits.notArmed_of_send (send : call.IsSend) : recvFrom = none :=
  fits.notArmed fun _ waits => waits_not_send waits send

omit fits

theorem fits_settled (noMessage : ∀ m, unsolved ≠ .message m)
    (own : ∀ m, (∃ stage, call = .send stage m) ∨ call = .sendWake m → m.src = t) :
    Fits t call unsolved none none where
  sending := fun _ queued => nomatch queued
  message := fun m is => absurd is (noMessage m)
  armed := fun _ armed => nomatch armed
  own := own

theorem own_of_not_send (other : ¬ call.IsSend) (m : Message n)
    (send : (∃ stage, call = .send stage m) ∨ call = .sendWake m) : m.src = t := by
  rcases send with ⟨stage, is⟩ | is
  · exact absurd (is ▸ trivial) other
  · exact absurd (is ▸ trivial) other

theorem Ok.at (ok : Ok a) (t : Fin n)
    (fits : Fits t (b.call t) (b.unsolved t) (b.sendTo t) (b.recvFrom t))
    (same : ∀ x ≠ t, b.call x = a.call x ∧ b.unsolved x = a.unsolved x ∧
      b.sendTo x = a.sendTo x ∧
      b.recvFrom x = a.recvFrom x) : Ok b := by
  intro x
  cases eq_or_ne x t with
  | inl is => exact is ▸ fits
  | inr other =>
    obtain ⟨call, unsolved, sendTo, recvFrom⟩ := same x other
    rw [call, unsolved, sendTo, recvFrom]
    exact ok x

/-- The receiver of a message no longer waits. -/
theorem Ok.into (ok : Ok a) (other : ¬ (a.call r).IsSend) (fresh : Bool) (m : Message n) :
    Ok (a.into fresh r m) := by
  cases fresh with
  | true => exact ok
  | false =>
    apply ok.at r
    · have free : a.sendTo r = none := (ok r).free_of_not_send other
      have settled : Fits r (a.call r) .null none none :=
        fits_settled (by simp) (own_of_not_send other)
      simpa [Mail.into, free] using settled
    · intro x apart
      simp [Mail.into, apart]

/-- A sender that was taken out of its queue has no message left. -/
theorem Ok.unqueue (ok : Ok a)
    (queued : a.sendTo t ≠ none) (noMessage : ∀ m, mark ≠ .message m) :
    Ok { a with unsolved := update a.unsolved t mark, sendTo := update a.sendTo t none } := by
  obtain ⟨target, is⟩ := Option.ne_none_iff_exists'.mp queued
  obtain ⟨stage, m, call, _, _⟩ := (ok t).sending target is
  apply ok.at t
  · dsimp only
    rw [update_self, update_self, (ok t).notArmed_of_send (call ▸ trivial)]
    exact fits_settled noMessage (ok t).own
  · intro x apart
    simp [apart]

theorem Edit.ok (ok : Ok a) (edit : Edit rules a b) : Ok b := by
  cases edit with
  | @stage t stage m stage' is =>
    have fits := ok t
    rw [is] at fits
    apply ok.at t
    · dsimp only
      rw [update_self]
      refine ⟨?_, fits.message, ?_, ?_⟩
      · intro target queued
        obtain ⟨_, m', same, to', un⟩ := fits.sending target queued
        cases same
        exact ⟨stage', m, rfl, to', un⟩
      · intro foo armed
        exact (fits.armed foo armed).2.elim
      · rintro m' (⟨stage'', same⟩ | same)
        · cases same
          exact fits.own m (.inl ⟨stage, rfl⟩)
        · cases same
    · intro x apart
      simp [apart]
  | @finish t m done =>
    have fits := ok t
    have send : (a.call t).IsSend := by
      rcases done with ⟨is, _⟩ | is <;> exact is ▸ trivial
    have free : a.sendTo t = none := by
      rcases done with ⟨is, null⟩ | is
      · cases queued : a.sendTo t with
        | none => rfl
        | some target =>
          obtain ⟨_, _, _, _, un⟩ := fits.sending target queued
          rw [null] at un
          cases un
      · exact fits.free fun stage m' is' => by rw [is] at is'; cases is'
    have noMessage : ∀ m, a.unsolved t ≠ .message m := by
      intro m is
      have := fits.message m is
      rw [free] at this
      cases this
    apply ok.at t
    · dsimp only
      rw [update_self, free, fits.notArmed_of_send send]
      exact fits_settled noMessage (own_of_not_send id)
    · intro x apart
      simp [apart]
  | @giveUp t stage m is =>
    apply ok.at t
    · dsimp only
      rw [update_self, update_self, update_self, (ok t).notArmed_of_send (is ▸ trivial)]
      exact fits_settled (by simp) (own_of_not_send id)
    · intro x apart
      simp [apart]
  | @move t call before after waits =>
    have fits := ok t
    have free := fits.free_of_not_send before
    apply ok.at t
    · dsimp only
      rw [update_self]
      refine ⟨?_, fits.message, ?_, own_of_not_send after⟩
      · intro target queued
        rw [free] at queued
        cases queued
      · intro foo armed
        exact ⟨(fits.armed foo armed).1, waits foo armed⟩
    · intro x apart
      simp [apart]
  | @disarm t mark free marked =>
    apply ok.at t
    · dsimp only
      rw [update_self, update_self, free]
      apply fits_settled
      · rcases marked with rfl | ⟨rfl, _⟩ <;> simp
      · exact (ok t).own
    · intro x apart
      simp [apart]
  | @deliver m new idle armed =>
    have waits : ∃ foo, (a.call m.dst).Waits foo := by
      rcases armed with is | is
      · exact ⟨_, ((ok m.dst).armed _ is).2⟩
      · exact ⟨_, ((ok m.dst).armed _ is).2⟩
    obtain ⟨foo, waits⟩ := waits
    have ok' := ok.into (waits_not_send waits) false m
    have same : (a.into false m.dst m).call m.src = .none := idle
    have fits := ok' m.src
    rw [same] at fits
    apply ok'.at m.src
    · dsimp only
      rw [update_self, fits.free (by simp), fits.notArmed (fun _ => id)]
      apply fits_settled
      · intro m' is
        have := fits.message m' is
        rw [fits.free (by simp)] at this
        cases this
      · rintro m' (⟨stage, is⟩ | is)
        · cases is
        · cases is
          rfl
    · intro x apart
      simp [apart, Mail.into]
  | post => exact ok
  | @queue m new idle sync takes checked =>
    have fits := ok m.src
    rw [idle] at fits
    apply ok.at m.src
    · dsimp only
      rw [update_self, update_self, update_self, fits.notArmed (fun _ => id)]
      refine ⟨?_, ?_, by simp, ?_⟩
      · intro target queued
        cases queued
        exact ⟨.block, m, rfl, rfl, rfl⟩
      · intro m' is
        cases is
        rfl
      · rintro m' (⟨stage, is⟩ | is)
        · cases is
          rfl
        · cases is
    · intro x apart
      simp [apart]
  | @take fo r m fresh queued is may =>
    have ok' := ok.unqueue (t := fo)
      (by simp [queued]) (show ∀ m, Unsolved.null ≠ .message m by simp)
    exact ok'.into may.1 fresh m
  | @takeAsync r foo m fresh found may =>
    have ok' : Ok { a with async := update a.async r ((a.async r).eraseP foo.picks) } := ok
    exact ok'.into may.1 fresh m
  | beginRecv => exact ok
  | @arm r foo dropped idle notArmed nothing noRupt =>
    apply ok.at r
    · dsimp only
      rw [update_self, update_self, update_self, (ok r).free_of_not_send idle]
      refine ⟨by simp, by simp, ?_, own_of_not_send id⟩
      intro foo' armed
      cases armed
      exact ⟨rfl, rfl⟩
    · intro x apart
      simp [apart]
  | fail queued => exact ok.unqueue queued (by simp)
  | release queued lossy => exact ok.unqueue queued (by simp)
  | clearAsync => exact ok
  | recordRupt => exact ok
  | takeRupt => exact ok
  | buffers => exact ok
  | @reset t free =>
    apply ok.at t
    · dsimp only
      rw [update_self, update_self, update_self, free]
      exact fits_settled (by simp) (own_of_not_send id)
    · intro x apart
      simp [apart]
  | status => exact ok

/-- Changes one after the other. -/
def Edits (rules : Rules) : Mail n → Mail n → Prop := Relation.ReflTransGen (Edit rules)

theorem Edits.keep {P : Mail n → Prop} (step : ∀ a b, P a → Ok a → Edit rules a b → P b)
    (edits : Edits rules a b) (ok : Ok a) (start : P a) : P b ∧ Ok b := by
  induction edits with
  | refl => exact ⟨start, ok⟩
  | tail _ last ih => exact ⟨step _ _ ih.1 ih.2 last, last.ok ih.2⟩

theorem Edits.ok (edits : Edits rules a b) (ok : Ok a) : Ok b :=
  (edits.keep (fun _ _ _ _ _ => trivial) ok trivial).2

/-! ## Copying to a receiver -/

/-- The number of the receive that a message is for. -/
def place (a : Mail n) (fresh : Bool) (r : Fin n) : Nat :=
  if fresh then a.recvCalls r + 1 else a.recvCalls r

section Into

variable (a : Mail n) (fresh : Bool) (r : Fin n) (m : Message n)

@[simp] theorem into_call : (a.into fresh r m).call = a.call := by cases fresh <;> rfl

@[simp] theorem into_sendTo : (a.into fresh r m).sendTo = a.sendTo := by cases fresh <;> rfl

@[simp] theorem into_async : (a.into fresh r m).async = a.async := by cases fresh <;> rfl

@[simp] theorem into_takes : (a.into fresh r m).takes = a.takes := by cases fresh <;> rfl

@[simp] theorem into_dead : (a.into fresh r m).dead = a.dead := by cases fresh <;> rfl

@[simp] theorem into_nextId : (a.into fresh r m).nextId = a.nextId := by cases fresh <;> rfl

@[simp] theorem into_sent : (a.into fresh r m).sent = a.sent := by cases fresh <;> rfl

@[simp] theorem into_returned : (a.into fresh r m).returned = a.returned := by cases fresh <;> rfl

theorem into_mapped : (a.into fresh r m).sendMapped = a.sendMapped ∧
    (a.into fresh r m).recvMapped = a.recvMapped := by
  cases fresh <;> exact ⟨rfl, rfl⟩

@[simp] theorem into_copied :
    (a.into fresh r m).copied = a.copied ++ [⟨m, r, a.place fresh r⟩] := by
  cases fresh <;> rfl

@[simp] theorem into_recvCalls :
    (a.into fresh r m).recvCalls = update a.recvCalls r (a.place fresh r) := by
  cases fresh with
  | true => rfl
  | false => exact (Function.update_eq_self r a.recvCalls).symm

variable {a fresh r m}

theorem into_unsolved (other : x ≠ r) : (a.into fresh r m).unsolved x = a.unsolved x := by
  cases fresh with
  | true => rfl
  | false => exact update_of_ne other _ _

/-- A receiver that waits after the message was copied is another one. -/
theorem into_recvFrom (may : MayTake rules a fresh r)
    (armed : (a.into fresh r m).recvFrom x ≠ none) :
    x ≠ r ∧ (a.into fresh r m).recvFrom x = a.recvFrom x := by
  cases fresh with
  | true => exact ⟨fun same => armed (same ▸ may.2), rfl⟩
  | false =>
    have other : x ≠ r := fun same => armed (by simp [Mail.into, same])
    exact ⟨other, update_of_ne other _ _⟩

end Into

/-- Every sender waits for a thread that it may wait for. -/
theorem Edit.takes (lasting : rules.lasting)
    (taken : ∀ t target, a.sendTo t = some target → a.takes target = true)
    (edit : Edit rules a b) : ∀ t target, b.sendTo t = some target → b.takes target = true := by
  intro t target queued
  cases edit with
  | stage | finish | move | disarm | post | beginRecv | arm | clearAsync | recordRupt | takeRupt
  | reset | buffers => exact taken t target queued
  | giveUp | fail | release => exact taken t target (update_none_some queued)
  | deliver => exact taken t target queued
  | take fresh _ _ may =>
    rw [into_sendTo] at queued
    rw [into_takes]
    exact taken t target (update_none_some queued)
  | takeAsync fresh found may =>
    rw [into_sendTo] at queued
    rw [into_takes]
    exact taken t target queued
  | @queue m new idle sync takes checked =>
    dsimp only at queued ⊢
    rw [update_apply] at queued
    split at queued
    · cases queued
      exact takes
    · exact taken t target queued
  | status dead takes more lasts => exact lasts lasting t target queued (taken t target queued)

theorem if_contains_cons {β : Type*} (f : Fin n → β) (v : β) (x : Fin n) (l : List (Fin n)) :
    (fun w => if (x :: l).contains w then v else f w) =
      update (fun w => if l.contains w then v else f w) x v := by
  funext w
  cases eq_or_ne w x with
  | inl same => simp [same]
  | inr other => simp [other]

theorem Edits.disarmAll (l : List (Fin n))
    (free : ∀ w ∈ l, a.sendTo w = none) : Edits rules a { a with
    recvFrom := fun w => if l.contains w then none else a.recvFrom w
    unsolved := fun w => if l.contains w then .dead else a.unsolved w } := by
  induction l with
  | nil =>
    exact Relation.ReflTransGen.refl
  | cons x l ih =>
    have rest := ih fun w there => free w (List.mem_cons_of_mem x there)
    have last := Relation.ReflTransGen.tail rest (.disarm .dead (free x (.head _)) (.inl rfl))
    rw [if_contains_cons, if_contains_cons]
    exact last

theorem Edits.releaseAll
    (l : List (Fin n)) (nodup : l.Nodup) (queued : ∀ w ∈ l, a.sendTo w ≠ none)
    (lossy : l ≠ [] → ¬ rules.careful) : Edits rules a { a with
      sendTo := fun w => if l.contains w then none else a.sendTo w
      unsolved := fun w => if l.contains w then .null else a.unsolved w } := by
  induction l with
  | nil =>
    exact Relation.ReflTransGen.refl
  | cons x l ih =>
    obtain ⟨new, distinct⟩ := List.nodup_cons.mp nodup
    have rest := ih distinct (fun w there => queued w (List.mem_cons_of_mem x there))
      fun _ => lossy (List.cons_ne_nil x l)
    have still : (if l.contains x then none else a.sendTo x) ≠ none := by
      rw [if_neg (by simpa using new)]
      exact queued x (.head _)
    have last := Relation.ReflTransGen.tail rest (.release still (lossy (List.cons_ne_nil x l)))
    rw [if_contains_cons, if_contains_cons]
    exact last

end Mail

end Mecocoa.Ipc
