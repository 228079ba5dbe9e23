import Mecocoa.Sched.Runs

/-! # Waits and wakes

A waiter registers itself, calls `Block` and then gives the core up; a waker that
sees the registration calls `Unblock`.  A wake that comes before `Block` is kept in
`pending_wake`, but only if the waiter is running at that moment: if the waiter was
preempted, or is still ready from its last wait, the wake is lost.
-/

namespace Mecocoa.Sched

open Option BitVec

open Lib (Run)
open Function (update update_self update_of_ne)

/-- How far a thread is with its wait, and whether it was woken since it registered. -/
inductive Phase where
  | none
  | registered (reason : BlockReason) (woken : Bool)
  | blocked (reason : BlockReason) (woken : Bool)
  deriving DecidableEq

structure WaitSys (n c : Nat) where
  sched : Taskman n c
  phase : Fin n → Phase

inductive WaitOp (n c : Nat) where
  | register (core : Fin c) (reason : BlockReason)
  | block (core : Fin c)
  | wake (t : Fin n) (reason : BlockReason)
  | tick (core : Fin c)
  | yield (core : Fin c)
  | sleep (core : Fin c)
  | append (t : Fin n)
  | exit (core : Fin c)

/-- The wake counts if it is for the reason that the thread registered with. -/
def Phase.wake (reason : BlockReason) : Phase → Phase
  | .none => .none
  | .registered reason' woken => .registered reason' (woken || reason' = reason)
  | .blocked reason' woken => .blocked reason' (woken || reason' = reason)

/-- A step that leaves all waits as they are. -/
def WaitSys.after (s : WaitSys n c) (result : Option (Taskman n c)) : Option (WaitSys n c) :=
  result.map fun sched => { s with sched }

/-- One step of a waiter, a waker or a core. -/
def WaitOp.exec (affinity : Bool) (s : WaitSys n c) : WaitOp n c → Option (WaitSys n c)
  | .register core reason =>
    let t := s.sched.current core
    -- A thread that is pended has the core to give up first.
    if IsIdle s.sched t ∨ reason = 0 then Option.none
    else if (s.sched.threads t).state = .running ∨ (s.sched.threads t).state = .ready then
      some { s with phase := update s.phase t (.registered reason false) }
    else Option.none
  | .block core =>
    let t := s.sched.current core
    match s.phase t with
    | .registered reason woken =>
      (SchedOp.exec affinity s.sched (.block core reason)).map fun sched =>
        { sched, phase := update s.phase t (.blocked reason woken) }
    | _ => Option.none
  | .wake t reason =>
    (SchedOp.exec affinity s.sched (.unblock t reason)).map fun sched =>
      { sched, phase := update s.phase t ((s.phase t).wake reason) }
  | .tick core => s.after (SchedOp.exec affinity s.sched (.tick core))
  | .yield core => s.after (SchedOp.exec affinity s.sched (.yield core))
  | .sleep core => s.after (SchedOp.exec affinity s.sched (.sleep core))
  | .append t => s.after (SchedOp.exec affinity s.sched (.append t))
  | .exit core =>
    (SchedOp.exec affinity s.sched (.exit core)).map fun sched =>
      { sched, phase := update s.phase (s.sched.current core) .none }

/-- The thread was woken with the reason after it registered. -/
def WokenFor (s : WaitSys n c) (t : Fin n) (reason : BlockReason) : Prop :=
  s.phase t = .registered reason true ∨ s.phase t = .blocked reason true

/-- No waiter sleeps on after a wake. -/
def NoLostWake (s : WaitSys n c) : Prop :=
  ∀ t reason, WokenFor s t reason →
    ¬ ((s.sched.threads t).state = .pended ∧ (s.sched.threads t).blockReason &&& reason ≠ 0)

/-- The wake does not come while the waiter is ready and has yet to call `Block`. -/
def WaitOp.InTime (s : WaitSys n c) : WaitOp n c → Prop
  | .wake t reason => (∃ woken, s.phase t = .registered reason woken) →
    (s.sched.threads t).state ≠ .ready
  | _ => True

/-! ## The invariant -/

/-- What holds of a thread in a phase of its wait. -/
structure PhaseOk (th : Thread) (phase : Phase) : Prop where
  calm : th.state ≠ .pended → th.blockReason = 0
  registered : ∀ reason woken, phase = .registered reason woken →
    (th.state = .running ∨ th.state = .ready) ∧ reason ≠ 0 ∧
    (woken = true → th.pendingWake &&& reason ≠ 0)
  blocked : ∀ reason, phase = .blocked reason true →
    ¬ (th.state = .pended ∧ th.blockReason &&& reason ≠ 0)

structure WaitInv (s : WaitSys n c) : Prop where
  sound : Sound False s.sched
  awake : IdleAwake s.sched
  each : ∀ t, PhaseOk (s.sched.threads t) (s.phase t)

section Steps

variable {sched : Taskman n c}

theorem WaitInv.noLostWake (inv : WaitInv s) : NoLostWake s := by
  intro t reason woken
  cases woken with
  | inl early =>
    rintro ⟨pended, -⟩
    have awake := ((inv.each t).registered reason true early).1
    rw [pended] at awake
    simp at awake
  | inr late => exact (inv.each t).blocked reason late

/-- Scheduling is of no matter to the waits. -/
theorem PhaseOk.moves (ok : PhaseOk th phase) (steady : Steady th th') : PhaseOk th' phase := by
  have moved := steady.state
  refine ⟨fun up => ?_, fun reason woken is => ?_, fun reason is => ?_⟩
  · have before := ok.calm
    rw [steady.reason]
    grind
  · obtain ⟨state, some, wake⟩ := ok.registered reason woken is
    rw [steady.wake]
    exact ⟨by grind, some, wake⟩
  · have before := ok.blocked reason is
    rw [steady.reason]
    grind

theorem WaitInv.moves (inv : WaitInv s) (sound : Sound False sched) (awake : IdleAwake sched)
    (moves : Moves s.sched sched) : WaitInv { s with sched } :=
  ⟨sound, awake, fun t => (inv.each t).moves (moves.threads t)⟩

/-- A step on one thread; `phase` is how far it is then. -/
theorem WaitInv.onThread (inv : WaitInv s) (sound : Sound False sched) (awake : IdleAwake sched)
    (touches : Touches t th s.sched sched) (ok : PhaseOk th phase) :
    WaitInv { sched, phase := update s.phase t phase } := by
  refine ⟨sound, awake, fun x => ?_⟩
  dsimp only
  rw [touches.threads]
  by_cases eq : x = t
  · rwa [eq, update_self, update_self]
  · rw [update_of_ne eq, update_of_ne eq]
    exact inv.each x

/-! ## Reasons -/

theorem and_ne_zero {a b : BlockReason} :
    a &&& b ≠ 0 ↔ ∃ i, i < 32 ∧ a.getLsbD i = true ∧ b.getLsbD i = true := by
  constructor
  · intro some
    by_contra none
    apply some
    apply eq_of_getLsbD_eq
    intro i small
    by_contra bit
    simp only [getLsbD_and, ofNat_eq_ofNat, getLsbD_zero, Bool.not_eq_false,
      Bool.and_eq_true] at bit
    exact none ⟨i, small, bit⟩
  · rintro ⟨i, _, left, right⟩ none
    have bit := congrArg (fun b => b.getLsbD i) none
    simp [left, right] at bit

theorem and_not_and (a reason : BlockReason) : a &&& ~~~reason &&& reason = 0 := by
  by_contra some
  obtain ⟨i, small, left, right⟩ := and_ne_zero.mp some
  simp [right] at left

theorem and_not_and_ne_zero {a reason other : BlockReason}
    (some : a &&& ~~~reason &&& other ≠ 0) :
    a &&& other ≠ 0 := by
  obtain ⟨i, small, left, right⟩ := and_ne_zero.mp some
  rw [getLsbD_and, Bool.and_eq_true] at left
  exact and_ne_zero.mpr ⟨i, small, left.1, right⟩

theorem or_and_ne_zero (reason : BlockReason) (some : a &&& other ≠ 0) :
    (a ||| reason) &&& other ≠ 0 := by
  obtain ⟨i, small, left, right⟩ := and_ne_zero.mp some
  exact and_ne_zero.mpr ⟨i, small, by simp [left], right⟩

theorem or_and_self_ne_zero (a : BlockReason) (some : reason ≠ 0) :
    (a ||| reason) &&& reason ≠ 0 := by
  have both : reason &&& reason ≠ 0 := by simpa using some
  obtain ⟨i, small, left, right⟩ := and_ne_zero.mp both
  exact and_ne_zero.mpr ⟨i, small, by simp [left], right⟩

/-! ## Steps -/

theorem wokenThread_blockReason (th : Thread) (reason : BlockReason) :
    (wokenThread th reason).blockReason = th.blockReason &&& ~~~reason := by
  unfold wokenThread
  dsimp only
  split
  · split
    · rfl
    split <;> rfl
  · rfl

theorem wokenThread_pended (pended : (wokenThread th reason).state = .pended) :
    th.state = .pended := by
  unfold wokenThread at pended
  grind

theorem wokenThread_calm (calm : th.state ≠ .pended → th.blockReason = 0) (reason : BlockReason)
    (up : (wokenThread th reason).state ≠ .pended) : (wokenThread th reason).blockReason = 0 := by
  rw [wokenThread_blockReason]
  unfold wokenThread at up
  dsimp only at up
  split at up
  · assumption
  · rw [calm up]
    simp

/-- A thread that runs or is ready keeps on; only the first takes note of the wake. -/
theorem wokenThread_awake (reason : BlockReason) (calm : th.blockReason = 0)
    (awake : th.state = .running ∨ th.state = .ready) :
    (wokenThread th reason).state = th.state ∧
      (wokenThread th reason).pendingWake =
        if th.state = .running then th.pendingWake ||| reason else th.pendingWake := by
  have clear : th.blockReason &&& ~~~reason = 0 := by rw [calm]; simp
  unfold wokenThread
  rw [if_pos clear]
  cases awake with
  | inl running => simp [running]
  | inr ready => simp [ready]

theorem WaitInv.wake (inv : WaitInv s) {affinity : Bool}
    (inTime : WaitOp.InTime s (.wake t reason))
    (ran : (WaitOp.wake t reason).exec affinity s = some s') :
    WaitInv s' := by
  obtain ⟨sched, woke, rfl⟩ := map_eq_some_iff.mp ran
  have sound := SchedOp.exec_sound inv.sound inv.awake (.unblock t reason) trivial woke
  have is : sched = unblock s.sched t reason := by
    obtain ⟨_, woke⟩ := ite_none_left_eq_some.mp woke
    exact (some.inj woke).symm
  subst is
  obtain ⟨notIdle, _⟩ := ite_none_left_eq_some.mp woke
  have own := inv.each t
  refine inv.onThread sound.1 sound.2.1 (unblock_sound inv.sound notIdle reason).2
    ⟨wokenThread_calm own.calm reason, ?_, ?_⟩
  · intro reason' woken phase
    cases before : s.phase t with
    | none => simp [before, Phase.wake] at phase
    | blocked => simp [before, Phase.wake] at phase
    | registered _ told =>
      rw [before] at phase
      cases phase
      obtain ⟨awake, some, noted⟩ := own.registered reason' told before
      have calm : (s.sched.threads t).blockReason = 0 := own.calm fun pended => by
        rw [pended] at awake
        simp at awake
      obtain ⟨state, wake⟩ := wokenThread_awake reason calm awake
      rw [state, wake]
      refine ⟨awake, some, fun yes => ?_⟩
      by_cases mine : reason' = reason
      · have up : (s.sched.threads t).state = .running :=
          awake.resolve_right (inTime ⟨told, mine ▸ before⟩)
        rw [if_pos up, mine]
        exact or_and_self_ne_zero _ (mine ▸ some)
      · have older := noted (by simpa [mine] using yes)
        split
        · exact or_and_ne_zero reason older
        · exact older
  · intro reason' phase
    rintro ⟨pended, more⟩
    rw [wokenThread_blockReason] at more
    cases before : s.phase t with
    | none => simp [before, Phase.wake] at phase
    | registered => simp [before, Phase.wake] at phase
    | blocked waits told =>
      simp only [before, Phase.wake, Phase.blocked.injEq] at phase
      obtain ⟨rfl, yes⟩ := phase
      by_cases mine : waits = reason
      · rw [mine] at more
        exact more (and_not_and _ _)
      · have older : told = true := by simpa [mine] using yes
        exact own.blocked waits (older ▸ before)
          ⟨wokenThread_pended pended, and_not_and_ne_zero more⟩

theorem WaitInv.block (inv : WaitInv s)
    (ran : (WaitOp.block core).exec affinity s = some s') : WaitInv s' := by
  unfold WaitOp.exec at ran
  dsimp only at ran
  split at ran
  · rename_i reason woken before
    obtain ⟨sched, slept, rfl⟩ := map_eq_some_iff.mp ran
    have sound := SchedOp.exec_sound inv.sound inv.awake (.block core reason) trivial slept
    have is : sched = Sched.block s.sched (s.sched.current core) reason := by
      obtain ⟨_, slept⟩ := ite_none_left_eq_some.mp slept
      exact (some.inj slept).symm
    subst is
    have own := inv.each (s.sched.current core)
    obtain ⟨awake, some, noted⟩ := own.registered reason woken before
    have up : (s.sched.threads (s.sched.current core)).state ≠ .pended := by
      intro pended
      rw [pended] at awake
      simp at awake
    refine inv.onThread sound.1 sound.2.1 (block_sound inv.sound _ reason).2 ⟨?_, ?_, ?_⟩
    · rw [blockedThread]
      split
      · intro _
        simp [own.calm up]
      · simp
    · simp
    · intro reason' phase
      cases phase
      rw [blockedThread, if_pos (noted rfl)]
      exact fun both => up both.1
  · exact absurd ran (by simp)

theorem WaitInv.exit (inv : WaitInv s)
    (ran : (WaitOp.exit core).exec affinity s = some s') : WaitInv s' := by
  obtain ⟨sched, ended, rfl⟩ := map_eq_some_iff.mp ran
  have sound := SchedOp.exec_sound inv.sound inv.awake (.exit core) trivial ended
  obtain ⟨notIdle, ended⟩ := ite_none_left_eq_some.mp ended
  have hung : WaitInv { s with
      sched := hangThread s.sched (s.sched.current core)
      phase := update s.phase (s.sched.current core) .none } := by
    obtain ⟨kept, touches⟩ := hangThread_sound inv.sound (s.sched.current core)
    exact inv.onThread kept (inv.awake.other notIdle touches) touches
      ⟨fun _ => rfl, by simp, by simp⟩
  exact hung.moves sound.1 sound.2.1 (exitThread_sound inv.sound ended).moves

theorem WaitInv.step (inv : WaitInv s) (op : WaitOp n c)
    (inTime : op.InTime s) (ran : op.exec affinity s = some s') : WaitInv s' := by
  have quiet : ∀ op : SchedOp n c, op.Quiet → op.May False s.sched →
      s.after (op.exec affinity s.sched) = some s' → WaitInv s' := by
    intro op calm may ran
    obtain ⟨sched, went, rfl⟩ := map_eq_some_iff.mp ran
    have sound := op.exec_sound inv.sound inv.awake may went
    exact inv.moves sound.1 sound.2.1 (sound.2.2.1 calm)
  cases op with
  | register core reason =>
    unfold WaitOp.exec at ran
    obtain ⟨able, ran⟩ := ite_none_left_eq_some.mp ran
    obtain ⟨awake, ⟨⟩⟩ := ite_none_right_eq_some.mp ran
    refine inv.onThread inv.sound inv.awake ⟨(Function.update_eq_self ..).symm, rfl, rfl⟩
      ⟨(inv.each _).calm, ?_, by simp⟩
    intro reason' woken phase
    cases phase
    exact ⟨awake, fun none => able (.inr none), by simp⟩
  | block core => exact inv.block ran
  | wake t reason => exact inv.wake inTime ran
  | tick core => exact quiet (.tick core) trivial trivial ran
  | yield core => exact quiet (.yield core) trivial False.elim ran
  | sleep core => exact quiet (.sleep core) trivial trivial ran
  | append t => exact quiet (.append t) trivial trivial ran
  | exit core => exact inv.exit ran

end Steps

/-- Nobody waits when the scheduler begins. -/
def WaitSys.start (threads : Fin n → Thread) (current idle : Fin c → Fin n) : WaitSys n c :=
  { sched := .start threads current idle, phase := fun _ => .none }

theorem WaitInv.start
    (fresh : Fresh threads current idle) : WaitInv (WaitSys.start threads current idle) where
  sound := (fresh.sound False).1
  awake := (fresh.sound False).2
  each := fun t => ⟨fun _ => fresh.reason t, by simp [WaitSys.start], by simp [WaitSys.start]⟩

/-- In every run where no wake comes while its waiter is ready and has yet to block, no waiter
sleeps on after a wake. -/
theorem wakes_not_lost {threads : Fin n → Thread} {current idle : Fin c → Fin n}
    (fresh : Fresh threads current idle) {affinity : Bool} {ops : List (WaitOp n c)}
    {s : WaitSys n c} (run : Run (fun s op s' => op.InTime s ∧ op.exec affinity s = some s')
      (WaitSys.start threads current idle) ops s) : NoLostWake s := by
  have inv : WaitInv s := Run.preserves
    (fun s op s' before step => before.step op step.1 step.2) run (WaitInv.start fresh)
  exact inv.noLostWake

def brRecvPipe : BlockReason := 0b10000000#32

/-- A waiter on the only core, its waker, and the idle thread. -/
def waiterAndWaker : Fin 3 → Thread
  | 0 => { state := .running, priority := 3 }
  | 1 => { priority := 4 }
  | 2 => { priority := 12 }

theorem fresh_waiterAndWaker : Fresh waiterAndWaker (fun _ : Fin 1 => 0) (fun _ => 2) where
  own := by decide
  expired := by decide
  reason := by decide
  awake := by decide

theorem wakes_not_lost_pending :
    ∃ s : WaitSys 3 1, Fresh waiterAndWaker (fun _ : Fin 1 => 0) (fun _ => 2) ∧
    Run (fun s op s' => WaitOp.InTime s op ∧ op.exec false s = some s')
      (WaitSys.start waiterAndWaker (fun _ => 0) (fun _ => 2))
      [.register 0 brRecvPipe, .wake 0 brRecvPipe, .block 0] s ∧ WokenFor s 0 brRecvPipe ∧
      NoLostWake s := by
  have run : Run (fun s op s' => WaitOp.InTime s op ∧ op.exec false s = some s')
      (WaitSys.start waiterAndWaker (fun _ : Fin 1 => 0) (fun _ => 2))
      [.register 0 brRecvPipe, .wake 0 brRecvPipe, .block 0] _ :=
    .cons ⟨trivial, rfl⟩
      (.cons ⟨fun _ => by decide +kernel, rfl⟩ (.cons ⟨trivial, rfl⟩ (.nil _)))
  exact ⟨_, fresh_waiterAndWaker, run, .inr (by decide +kernel),
    wakes_not_lost fresh_waiterAndWaker run⟩

/-- The timer preempts the waiter between its registration and `Block`, and the wake comes then. -/
def wakeWhilePreempted (t other : Fin n) (core : Fin c) : List (WaitOp n c) :=
  [.append other, .register core brRecvPipe, .tick core, .wake t brRecvPipe, .tick core,
    .block core]

theorem wake_lost_while_preempted :
    ∃ s : WaitSys 3 1, Fresh waiterAndWaker (fun _ : Fin 1 => 0) (fun _ => 2) ∧
    Run (fun s op s' => WaitOp.exec false s op = some s')
      (WaitSys.start waiterAndWaker (fun _ => 0) (fun _ => 2)) (wakeWhilePreempted 0 1 0) s ∧
      ¬ NoLostWake s := by
  have ran : ((wakeWhilePreempted 0 1 0).foldlM (WaitOp.exec false)
      (WaitSys.start waiterAndWaker (fun _ : Fin 1 => 0) (fun _ => 2))).any (fun s =>
        decide (s.phase 0 = .blocked brRecvPipe true ∧ (s.sched.threads 0).state = .pended ∧
          (s.sched.threads 0).blockReason &&& brRecvPipe ≠ 0)) = true := by
    decide +kernel
  obtain ⟨s, run, holds⟩ := Run.exists_of_any ran
  obtain ⟨woken, sleeps⟩ := of_decide_eq_true holds
  exact ⟨s, fresh_waiterAndWaker, run, fun safe => safe 0 brRecvPipe (.inr woken) sleeps⟩

end Mecocoa.Sched
