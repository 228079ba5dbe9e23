import Mecocoa.Lib.Acyclic
import Mecocoa.Ipc.Calls

/-! # Waiting

No threads wait for each other in a circle, and no thread sleeps while an interrupt that it
waits for is on record.
-/

namespace Mecocoa.Ipc

open Lib (Run Acyclic LinkedTo)
open Relation (TransGen)
open Function (update update_self update_of_ne update_apply)

variable {n p : Nat}

/-! ## The check for deadlocks -/

/-- Where the check finds nothing, the senders do not lead to the thread. -/
theorem willDeadlockFrom_false
    (pending : ∀ t target, sendTo t = some target → unsolved t ≠ .null) :
    ∀ {fuel : Nat} {crt : Fin n},
    willDeadlockFrom sendTo unsolved fo fuel crt = some false →
      ¬ TransGen (LinkedTo sendTo) crt fo := by
  intro fuel
  induction fuel with
  | zero => exact nofun
  | succ fuel ih =>
    intro crt checked path
    obtain ⟨target, first, rest⟩ := Relation.TransGen.head'_iff.mp path
    have link : sendTo crt = some target := first
    simp only [willDeadlockFrom, link, pending crt target link, if_false] at checked
    split at checked
    · cases checked
    · rename_i other
      cases Relation.reflTransGen_iff_eq_or_transGen.mp rest with
      | inl same => exact other same.symm
      | inr longer => exact ih checked longer

/-- The check returns where the rank falls along the links. -/
theorem willDeadlockFrom_returns {rank : Fin n → Nat}
    (falls : ∀ t target, sendTo t = some target → rank target < rank t)
    (unsolved : Fin n → Unsolved n) (fo : Fin n) :
    ∀ {fuel : Nat} {crt : Fin n}, rank crt < fuel →
      willDeadlockFrom sendTo unsolved fo fuel crt ≠ none := by
  intro fuel
  induction fuel with
  | zero => exact fun {crt} less => absurd less (Nat.not_lt_zero (rank crt))
  | succ fuel ih =>
    intro crt less
    unfold willDeadlockFrom
    cases link : sendTo crt with
    | none => exact nofun
    | some target =>
      dsimp only
      split
      · exact nofun
      · split
        · exact nofun
        · exact ih (by have := falls crt target link; omega)

/-- A thread that waits for itself keeps the check of another one going. -/
theorem willDeadlockFrom_self
    (self : sendTo t = some t) (pending : unsolved t ≠ .null) (other : t ≠ fo) :
    ∀ fuel, willDeadlockFrom sendTo unsolved fo fuel t = none := by
  intro fuel
  induction fuel with
  | zero => rfl
  | succ fuel ih => simp only [willDeadlockFrom, self, pending, other, if_false, ih]

namespace Mail

variable {a b : Mail n}

/-- The only link that is added is one that the check has let through. -/
theorem Edit.acyclic (apart : rules.apart) (acyclic : Acyclic a.sendTo) (ok : Ok a)
    (edit : Edit rules a b) :
    Acyclic b.sendTo := by
  cases edit with
  | stage | finish | move | disarm | deliver | post | beginRecv | arm | clearAsync | recordRupt
  | takeRupt | reset | buffers | status => exact acyclic
  | giveUp | fail | release => exact acyclic.of_le fun _ _ => update_none_some
  | take =>
    rw [into_sendTo]
    exact acyclic.of_le fun _ _ => update_none_some
  | takeAsync =>
    rw [into_sendTo]
    exact acyclic
  | @queue m new idle sync takes checked noSelf =>
    have pending : ∀ t target, a.sendTo t = some target → a.unsolved t ≠ .null := by
      intro t target queued null
      obtain ⟨_, _, _, _, message⟩ := (ok t).sending target queued
      rw [null] at message
      cases message
    apply acyclic.link
    intro back
    cases Relation.reflTransGen_iff_eq_or_transGen.mp back with
    | inl same => exact noSelf apart same
    | inr path => exact willDeadlockFrom_false pending checked path

/-- A thread that waits for interrupts has none on record. -/
def NoRupt (a : Mail n) : Prop := ∀ t, ForRupt (a.recvFrom t) → a.waitRupt t = 0

theorem not_forRupt_none : ¬ ForRupt (none : Option (Source n)) := by
  simp [ForRupt]

/-- Nothing was put on record, and no thread waits that did not before. -/
theorem NoRupt.of_less (noRupt : NoRupt a) (same : b.waitRupt = a.waitRupt)
    (less : ∀ t, b.recvFrom t = none ∨ b.recvFrom t = a.recvFrom t) : NoRupt b := by
  intro t waits
  rw [same]
  cases less t with
  | inl none =>
    rw [none] at waits
    exact absurd waits not_forRupt_none
  | inr old => exact noRupt t (old ▸ waits)

theorem update_none_less (recvFrom : Fin n → Option (Source n)) (r t : Fin n) :
    update recvFrom r none t = none ∨ update recvFrom r none t = recvFrom t := by
  cases eq_or_ne t r with
  | inl is => exact .inl (by rw [is, update_self])
  | inr other => exact .inr (update_of_ne other _ _)

theorem NoRupt.into (noRupt : NoRupt a) (fresh : Bool) (r : Fin n) (m : Message n) :
    NoRupt (a.into fresh r m) := by
  cases fresh with
  | true => exact noRupt
  | false => exact noRupt.of_less rfl (update_none_less a.recvFrom r)

theorem Edit.noRupt (prompt : rules.prompt) (noRupt : NoRupt a) (edit : Edit rules a b) :
    NoRupt b := by
  cases edit with
  | stage | finish | giveUp | move | post | queue | beginRecv | fail | release | clearAsync
  | buffers | status => exact noRupt
  | disarm => exact noRupt.of_less rfl (update_none_less a.recvFrom _)
  | reset => exact noRupt.of_less rfl (update_none_less a.recvFrom _)
  | @deliver m new idle armed => exact noRupt.into false m.dst m
  | take | takeAsync =>
    apply NoRupt.into
    exact noRupt
  | @arm r foo dropped idle notArmed nothing none =>
    intro t waits
    dsimp only at waits ⊢
    rw [update_apply] at waits
    split at waits
    · rename_i is
      exact is ▸ none waits
    · exact noRupt t waits
  | @recordRupt r ruptNo noted =>
    intro t waits
    dsimp only at waits ⊢
    cases eq_or_ne t r with
    | inl is => exact absurd (is ▸ waits) (noted prompt)
    | inr other =>
      rw [update_of_ne other]
      exact noRupt t waits
  | takeRupt r =>
    intro t waits
    dsimp only at waits ⊢
    cases eq_or_ne t r with
    | inl is => rw [is, update_self]
    | inr other =>
      rw [update_of_ne other]
      exact noRupt t waits

end Mail

/-! ## Runs -/

/-- As long as no thread sends to itself, the senders that wait form no circle and the check for
deadlocks returns wherever it starts. -/
theorem senders_acyclic {control : Fin n → Sched.Thread} {onCpu : Fin n → Bool}
    {process : Fin n → Fin p} {isMain isSystem : Fin n → Bool} {events : List (Event n p)}
    {s : Comm n p} (live : ∀ t, LiveThread (control t))
    (run : Run (CallStep fun _ e => Apart e) (Comm.start control onCpu process isMain isSystem)
      events s) :
    (∀ t, ¬ TransGen (fun x y => s.sendTo x = some y) t t) ∧
      ∀ fo target, s.msgSendWillDeadlock fo target ≠ none := by
  have holds : Sound s ∧ Acyclic s.mail.sendTo := by
    apply calls_keep ⟨False, False, False, True, False⟩ (P := fun a => Acyclic a.sendTo) _ _
      (Comm.start_quiet live onCpu process isMain isSystem)
      (Comm.start_sound control onCpu process isMain isSystem) _ run
    · exact fun s e _ apart => ⟨False.elim, False.elim, False.elim, fun _ => apart, False.elim⟩
    · exact fun a b acyclic ok edit => edit.acyclic trivial acyclic ok
    · intro t cycle
      obtain ⟨_, first, _⟩ := Relation.TransGen.head'_iff.mp cycle
      cases first
  refine ⟨holds.2, fun fo target => ?_⟩
  obtain ⟨rank, bound, falls⟩ := holds.2.exists_rank
  refine willDeadlockFrom_returns falls s.unsolved fo ?_
  have := bound target
  rw [Fintype.card_fin] at this
  omega

/-- Thread 0 waits for thread 1, which waits for thread 2. -/
theorem senders_acyclic_chain : ∃ s : Comm 3 3, (s.sendTo 0 = some 1 ∧ s.sendTo 1 = some 2) ∧
    (∀ t, ¬ TransGen (fun x y => s.sendTo x = some y) t t) ∧
      ∀ fo target, s.msgSendWillDeadlock fo target ≠ none := by
  obtain ⟨s, run, chain⟩ : ∃ s, Run (CallStep fun _ e => Apart e) (Comm.running 3)
      (sleepingSend 0 1 ++ sleepingSend 1 2) s ∧ s.sendTo 0 = some 1 ∧ s.sendTo 1 = some 2 :=
    exists_runWhen (by decide +kernel)
  exact ⟨s, chain, senders_acyclic (running_live 3) run⟩

/-- Thread 0 sends to itself and waits, and the check of a send to it never returns. -/
theorem self_send_not_detected :
    ∃ events, ∃ s : Comm 2 2, Run (CallStep fun _ _ => True) (Comm.running 2) events s ∧
    (BlockedToSend s 0 ∧ s.sendTo 0 = some 0) ∧
      ∀ fuel, willDeadlockFrom s.sendTo s.unsolved 1 fuel 0 = none := by
  obtain ⟨s, run, self, pending⟩ :
    ∃ s, Run (CallStep fun _ _ => True) (Comm.running 2) (sleepingSend 0 0) s ∧
      (BlockedToSend s 0 ∧ s.sendTo 0 = some 0) ∧ s.unsolved 0 ≠ .null :=
    exists_runWhen (by decide +kernel)
  exact ⟨_, s, run, self, willDeadlockFrom_self self.2 pending (by decide)⟩

/-! ## Interrupts -/

def BlockedToRecv (s : Comm n p) (x : Fin n) : Prop :=
  (s.control x).state = .pended ∧ s.blockedFor x brRecvMsg = true

/-- The thread sleeps in a receive that takes interrupts, with one on record. -/
def MissesRupt (s : Comm n p) (t : Fin n) : Prop :=
  (BlockedToRecv s t ∧ (s.recvFrom t = some .any ∨ s.recvFrom t = some .intrupt)) ∧
  s.waitRupt t ≠ 0

instance (s : Comm n p) (x : Fin n) : Decidable (BlockedToRecv s x) :=
  inferInstanceAs (Decidable (_ ∧ _))

instance (s : Comm n p) (t : Fin n) : Decidable (MissesRupt s t) :=
  inferInstanceAs (Decidable (_ ∧ _))

/-- As long as no interrupt comes between the point where a receiver begins to wait and the point
where it is blocked, no thread sleeps while an interrupt that it waits for is on record. -/
theorem no_rupt_missed {control : Fin n → Sched.Thread} {onCpu : Fin n → Bool}
    {process : Fin n → Fin p} {isMain isSystem : Fin n → Bool} {events : List (Event n p)}
    {s : Comm n p} (live : ∀ t, LiveThread (control t))
    (run : Run (CallStep Prompt) (Comm.start control onCpu process isMain isSystem) events s)
    (t : Fin n) :
    ¬ MissesRupt s t := by
  have holds : Sound s ∧ s.mail.NoRupt := by
    apply calls_keep ⟨False, True, False, False, False⟩ _ _
      (Comm.start_quiet live onCpu process isMain isSystem)
      (Comm.start_sound control onCpu process isMain isSystem) _ run
    · exact fun s e _ prompt =>
        ⟨False.elim, fun _ => prompt, False.elim, False.elim, False.elim⟩
    · exact fun a b noRupt _ edit => edit.noRupt trivial noRupt
    · exact fun _ _ => rfl
  rintro ⟨⟨_, waits⟩, recorded⟩
  exact recorded (holds.2 t waits)

/-- Thread 0 waits for anything, and thread 1 has an interrupt on record that it does not wait
for. -/
theorem no_rupt_missed_recorded :
    ∃ s : Comm 2 2, (BlockedToRecv s 0 ∧ s.waitRupt 1 = 5) ∧ ∀ t, ¬ MissesRupt s t := by
  obtain ⟨s, run, waits⟩ :
    ∃ s, Run (CallStep Prompt) (Comm.running 2) (sleepingRecv 0 .any ++ [.rupt 1 5]) s ∧
      BlockedToRecv s 0 ∧ s.waitRupt 1 = 5 := exists_runWhen (by decide +kernel)
  exact ⟨s, waits, no_rupt_missed (running_live 2) run⟩

/-- The interrupt comes after thread 1 has begun to wait and before it is blocked: it sleeps with
the interrupt on record, and no one is left to wake it. -/
theorem rupt_missed :
    ∃ events, ∃ s : Comm 2 2, Run (CallStep fun _ _ => True) (Comm.running 2) events s ∧
    MissesRupt s 1 ∧ s.wakers.isEmpty = true ∧ s.call 0 = .none := by
  refine ⟨[.recv 1 .any .mapped, .step 1, .rupt 1 5, .step 1, .step 1, .step 1],
    exists_runWhen ?_⟩
  decide +kernel

end Mecocoa.Ipc
