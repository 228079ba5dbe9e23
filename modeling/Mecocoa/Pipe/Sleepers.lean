import Mecocoa.Pipe.Lists

/-! # Sleepers

What it means that a thread which sleeps in a pipe is attended to, which steps may break that,
and what holds of each thread on its own.
-/

namespace Mecocoa.Pipe

open Sched

open Lib (Chains Run)
open Lib.LinkedQueues (chainFrom)
open Sched (BlockReason blockedThread wokenThread)
open Function (update update_self update_of_ne)

/-! ## Walkers -/

namespace Call

/-- The rest of the list that the thread wakes. -/
def walkHead : Call m n → Option (Fin n)
  | .io _ (.wake head) => head
  | .close _ head => head
  | _ => Option.none

/-- The end at which the threads of that list wait. -/
def walkSide : Call m n → Option Side
  | .io job (.wake _) => some job.side.other
  | .close side _ => some side.other
  | _ => Option.none

end Call

namespace Pipes

def walks (s : Pipes m n) (t : Fin n) : Option (Fin n) := (s.call t).walkHead

/-- The members of a list, as a walk along its links finds them. -/
def members (s : Pipes m n) (key : ListKey m n) : List (Fin n) :=
  let chains := s.waiters.chains s.walks
  (chainFrom chains.next n (chains.head key)).getD []

/-- The channel has nothing for those who wait at the end. -/
def nothingFor (s : Pipes m n) : Fin m × Side → Prop
  | (c, .reader) => (s.channels c).buffer = [] ∧ (s.channels c).writerCount ≠ 0
  | (c, .writer) => s.capacity ≤ (s.channels c).buffer.length ∧ (s.channels c).readerCount ≠ 0

end Pipes

/-! ## Sleepers -/

def Awake (th : Sched.Thread) : Prop := th.state = .running ∨ th.state = .ready

theorem Awake.up (awake : Awake th) : th.state ≠ .pended := by
  intro pended
  rcases awake with is | is <;> simp [pended] at is

/-- The thread sleeps in a transfer. -/
def Sleeps (s : Pipes m n) (t : Fin n) (job : Job m) : Prop :=
  (∃ stage, s.call t = .io job stage) ∧ (s.control t).state = .pended ∧
  (s.control t).blockReason &&& job.reason ≠ 0

/-- The thread waits in the list of its end, for something that is not there, or is about to be
woken by a thread that is awake, by a signal or, as long as it has the core, by itself. -/
def Attended (s : Pipes m n) (t : Fin n) (job : Job m) : Prop :=
  (t ∈ s.members (.inl (job.chan, job.side)) ∧ s.nothingFor (job.chan, job.side)) ∨
    (∃ w, t ∈ s.members (.inr w) ∧ (s.call w).walkSide = some job.side ∧
    Awake (s.control w)) ∨
    .unblock t ∈ s.signallers ∨ s.call t = .io job .unblockSelf ∧ s.onCpu t = true

/-- The step is the wake that the thread waits for. -/
def Wakes (s : Pipes m n) (t : Fin n) (job : Job m) : Event m n → Prop
  | .step w => (s.call w).walkHead = some t ∧ (s.call w).walkSide = some job.side ∨ w = t ∧
    s.call w = .io job .unblockSelf
  | .signalStep i => s.signallers[i]? = some (.unblock t)
  | _ => False

/-! ## Conditions -/

namespace Stage

/-- Linked, and on the way to `Block`. -/
def early : Stage n → Bool
  | .added | .block => true
  | _ => false

/-- From `Block` on, as long as the wait goes on. -/
def late : Stage n → Bool
  | .check | .look | .cancelBlocked | .sleep | .woken => true
  | _ => false

end Stage

/-- The round of the loop ends with the thread in the list of its end. -/
def Pipes.willWait (s : Pipes m n) (job : Job m) : Prop :=
  match job.transfer with
  | .read count dst => dst.length < count ∧ s.nothingFor (job.chan, .reader)
  | .write src written => written < src.length ∧ s.nothingFor (job.chan, .writer)

/-- The wake does not come while the waiter is ready and has yet to call `Block`. -/
def InTime (s : Pipes m n) (t : Fin n) : Prop :=
  match s.call t with
  | .io _ stage => stage.early = true → (s.control t).state ≠ .ready
  | _ => True

/-- What the code does not make sure of. -/
def Careful (s : Pipes m n) : Event m n → Prop
  | .step t =>
    match s.call t with
    | .io job .enter => s.willWait job → ∀ key, t ∉ s.members key
    | .io _ (.wake (some first)) | .close _ (some first) => InTime s first
    | _ => True
  | .preempt t =>
    match s.call t with
    | .io _ .unblockSelf => (s.control t).state ≠ .pended
    | _ => True
  | .signalStep i =>
    match s.signallers[i]? with
    | some (.cancel t) => (s.control t).state = .pended
    | _ => True
  | .die t => (∀ w, t ∉ s.members (.inr w)) ∧ s.walks t = none
  | _ => True

/-! ## One thread -/

/-- What holds of one thread: `placed` if it is in a list, `told` if a signal is about to wake it,
`home job` if the lists that it is in are those that wait with the job. -/
structure ThreadOk (th : Sched.Thread) (cpu : Bool) (call : Call m n) (placed told : Prop)
    (home : Job m → Prop) :
    Prop where
  calm : th.state ≠ .pended → th.blockReason = 0
  live : call ≠ .none → Awake th ∨ th.state = .pended
  busy : ∀ job stage, call = .io job stage → stage.late = false → stage ≠ .unblockSelf →
    Awake th
  closing : ∀ side head, call = .close side head → Awake th
  running : cpu = true → Awake th ∨ ∃ job stage, call = .io job stage ∧ stage ≠ .woken
  home : ∀ job stage, call = .io job stage → stage.early = true ∨ stage.late = true →
    home job
  early : ∀ job stage, call = .io job stage → stage.early = true → placed ∨
    th.pendingWake &&& job.reason ≠ 0
  late : ∀ job stage, call = .io job stage → stage.late = true → th.state = .pended →
    th.blockReason = job.reason ∧ (placed ∨ told)
  own : ∀ job, call = .io job .unblockSelf → th.state = .pended → cpu = true ∧
    th.blockReason = job.reason

namespace ThreadOk

variable {call : Call m n} {home : Job m → Prop}

theorem mono (ok : ThreadOk th cpu call placed told home)
    (place : placed → placed') (tell : told → told') (keep : ∀ job, home job → home' job) :
    ThreadOk th cpu call placed' told' home' where
  calm := ok.calm
  live := ok.live
  busy := ok.busy
  closing := ok.closing
  running := ok.running
  home := fun job stage is waits => keep job (ok.home job stage is waits)
  early := fun job stage is early => (ok.early job stage is early).imp_left place
  late := fun job stage is late pended =>
    (ok.late job stage is late pended).imp_right (Or.imp place tell)
  own := ok.own

theorem of_up (awake : Awake th) (calm : th.state ≠ .pended → th.blockReason = 0)
    (waits : ∀ job stage, call = .io job stage → stage.early = true ∨ stage.late = true →
      home job)
    (early : ∀ job stage, call = .io job stage → stage.early = true → placed ∨
      th.pendingWake &&& job.reason ≠ 0) :
    ThreadOk th cpu call placed told home :=
  ⟨calm, fun _ => .inl awake, fun _ _ _ _ _ => awake, fun _ _ _ => awake, fun _ => .inl awake,
  waits, early,
    fun _ _ _ _ pended => absurd pended awake.up, fun _ _ pended => absurd pended awake.up⟩

/-- A thread that is awake and neither waits nor is about to. -/
theorem of_awake (awake : Awake th) (calm : th.state ≠ .pended → th.blockReason = 0)
    (plain : ∀ job stage, call = .io job stage → stage.early = false ∧ stage.late = false) :
    ThreadOk th cpu call placed told home := by
  refine of_up awake calm ?_ ?_
  · intro job stage is waits
    obtain ⟨notEarly, notLate⟩ := plain job stage is
    simp [notEarly, notLate] at waits
  · intro job stage is early
    simp [(plain job stage is).1] at early

theorem of_none (calm : th.state ≠ .pended → th.blockReason = 0)
    (running : cpu = true → Awake th) :
    ThreadOk th cpu (.none : Call m n) placed told home :=
  ⟨calm, fun some => absurd rfl some, fun _ _ is => (nomatch is), fun _ _ is => (nomatch is),
  fun on => .inl (running on),
    fun _ _ is => (nomatch is), fun _ _ is => (nomatch is), fun _ _ is => (nomatch is), fun _ is =>
    (nomatch is)⟩

/-- The wait goes on in another stage of the same kind. -/
theorem restage (ok : ThreadOk th cpu (.io job stage : Call m n) placed told home)
    (late : stage.late = true) (late' : stage'.late = true)
    (still : cpu = true → Awake th ∨ stage' ≠ .woken) :
    ThreadOk th cpu (.io job stage' : Call m n) placed told home := by
  refine ⟨ok.calm, fun _ => ok.live (by simp), ?_, fun _ _ is => (nomatch is), ?_, ?_, ?_, ?_,
    ?_⟩
  · rintro _ _ ⟨⟩ other
    simp [late'] at other
  · exact fun on => (still on).imp_right fun other => ⟨job, stage', rfl, other⟩
  · rintro _ _ ⟨⟩ -
    exact ok.home job stage rfl (.inr late)
  · rintro _ _ ⟨⟩ early
    cases stage' <;> simp_all [Stage.early, Stage.late]
  · rintro _ _ ⟨⟩ - pended
    exact ok.late job stage rfl late pended
  · rintro _ ⟨⟩
    simp [Stage.late] at late'

theorem awake_of_running (ok : ThreadOk th cpu call placed told home) (on : cpu = true)
    (out : ∀ job stage, call = .io job stage → stage = .woken) : Awake th := by
  rcases ok.running on with awake | ⟨job, stage, is, other⟩
  · exact awake
  · exact absurd (out job stage is) other

theorem added (ok : ThreadOk th cpu (.io job .enter : Call m n) placed told home)
    (place : placed') (own : home' job) :
    ThreadOk th cpu (.io job .added : Call m n) placed' told' home' := by
  refine of_up (ok.busy job .enter rfl rfl (by simp)) ok.calm ?_ fun _ _ _ _ => .inl place
  rintro _ _ ⟨⟩ -
  exact own

theorem toBlock (ok : ThreadOk th cpu (.io job .added : Call m n) placed told home) :
    ThreadOk th cpu (.io job .block : Call m n) placed told home := by
  refine of_up (ok.busy job .added rfl rfl (by simp)) ok.calm ?_ ?_
  · rintro _ _ ⟨⟩ -
    exact ok.home job .added rfl (.inl rfl)
  · rintro _ _ ⟨⟩ -
    exact ok.early job .added rfl rfl

end ThreadOk

/-! ## Blocking and waking one thread -/

section Control

variable {call : Call m n} {home : Job m → Prop}

theorem Awake.woken (awake : Awake th) (calm : th.blockReason = 0) (reason : BlockReason) :
    Awake (wokenThread th reason) := by
  unfold Awake
  rw [(wokenThread_awake reason calm awake).1]
  exact awake

theorem ThreadOk.block (ok : ThreadOk th cpu (.io job .block : Call m n) placed told home) :
    ThreadOk (blockedThread th job.reason) cpu (.io job .check : Call m n) placed told home := by
  have awake := ok.busy job .block rfl rfl (by simp)
  have clear := ok.calm awake.up
  have early := ok.early job .block rfl rfl
  have own := ok.home job .block rfl (.inl rfl)
  unfold blockedThread
  split
  · rename_i kept
    have reset : th.blockReason &&& ~~~job.reason = 0 := by rw [clear]; simp
    refine .of_up awake (fun _ => reset) ?_ ?_
    · rintro _ _ ⟨⟩ -
      exact own
    · rintro _ _ ⟨⟩ early
      simp [Stage.early] at early
  · rename_i none
    refine ⟨fun up => absurd rfl up, fun _ => .inr rfl, ?_, fun _ _ is => (nomatch is),
      fun _ => .inr ⟨job, .check, rfl, by simp⟩, ?_, ?_, ?_, ?_⟩
    · rintro _ _ ⟨⟩ late
      simp [Stage.late] at late
    · rintro _ _ ⟨⟩ -
      exact own
    · rintro _ _ ⟨⟩ early
      simp [Stage.early] at early
    · rintro _ _ ⟨⟩ - -
      refine ⟨by simp [clear], .inl (early.resolve_right none)⟩
    · rintro _ ⟨⟩

/-- The thread gives up its core. -/
def yielded (th : Sched.Thread) : Sched.Thread :=
  { th with state := if th.state = .running then .ready else th.state }

theorem yielded_pended : (yielded th).state = .pended ↔ th.state = .pended := by
  unfold yielded
  grind

theorem Awake.yielded (awake : Awake th) : Awake (yielded th) := by
  unfold Awake Pipe.yielded at *
  grind

variable (ok : ThreadOk th cpu call placed told home)

include ok

theorem ThreadOk.yields (steady : ∀ job, call = .io job .unblockSelf → th.state ≠ .pended) :
    ThreadOk (yielded th) false call placed told home where
  calm := fun up => ok.calm fun pended => up (yielded_pended.mpr pended)
  live := fun some => (ok.live some).imp Awake.yielded yielded_pended.mpr
  busy := fun job stage is notLate notSelf => (ok.busy job stage is notLate notSelf).yielded
  closing := fun side head is => (ok.closing side head is).yielded
  running := fun on => nomatch on
  home := ok.home
  early := ok.early
  late := fun job stage is late pended => ok.late job stage is late (yielded_pended.mp pended)
  own := fun job is pended => absurd (yielded_pended.mp pended) (steady job is)

theorem ThreadOk.resumes (ready : th.state = .ready) :
    ThreadOk { th with state := .running } true call placed told home :=
  .of_up (.inl rfl) (fun _ => ok.calm (by simp [ready])) ok.home ok.early

omit ok in
theorem reason_and (side : Side) (some : side.reason &&& x ≠ 0) :
    side.reason &&& x = side.reason := by
  have bit : ∀ i, BitVec.twoPow 32 i &&& x ≠ 0 →
      BitVec.twoPow 32 i &&& x = BitVec.twoPow 32 i := by
    intro i nonzero
    rw [BitVec.and_comm, BitVec.and_twoPow] at nonzero ⊢
    split at nonzero
    · rename_i set
      rw [if_pos set]
    · exact absurd rfl nonzero
  cases side with
  | reader => exact bit 7 some
  | writer => exact bit 6 some

omit ok in
theorem wokenThread_still (pended : (wokenThread th reason).state = .pended) :
    th.blockReason &&& ~~~reason ≠ 0 := by
  unfold wokenThread at pended
  grind

/-- A wake.  What remains to be shown is that a waiter which is not awake then is still in a
list. -/
theorem ThreadOk.wake (keep : ∀ job, home job → home' job)
    (early : ∀ job stage, call = .io job stage → stage.early = true →
    placed' ∨ (wokenThread th reason).pendingWake &&& job.reason ≠ 0)
    (late : ∀ job stage, call = .io job stage → stage.late = true →
      (wokenThread th reason).state = .pended →
    placed' ∨ told') : ThreadOk (wokenThread th reason) cpu call placed' told' home' := by
  have awake : Awake th → Awake (wokenThread th reason) :=
    fun awake => awake.woken (ok.calm awake.up) reason
  have same : ∀ job : Job m, (wokenThread th reason).state = .pended →
    th.blockReason = job.reason →
      (wokenThread th reason).blockReason = job.reason := by
    intro job pended is
    have still := wokenThread_still pended
    rw [wokenThread_blockReason]
    rw [is] at still ⊢
    exact reason_and job.side still
  refine ⟨wokenThread_calm ok.calm reason, ?_, fun job stage is notLate notSelf =>
    awake (ok.busy job stage is notLate notSelf),
    fun side head is => awake (ok.closing side head is), fun on => (ok.running on).imp_left awake,
    fun job stage is waits => keep job (ok.home job stage is waits), early, ?_, ?_⟩
  · intro some
    rcases ok.live some with up | pended
    · exact .inl (awake up)
    · unfold wokenThread Awake
      grind
  · intro job stage is isLate pended
    obtain ⟨reason, -⟩ := ok.late job stage is isLate (wokenThread_pended pended)
    exact ⟨same job pended reason, late job stage is isLate pended⟩
  · intro job is pended
    obtain ⟨on, reason⟩ := ok.own job is (wokenThread_pended pended)
    exact ⟨on, same job pended reason⟩

/-- A wake that leaves the lists as they are, but for the sleepers. -/
theorem ThreadOk.wakeAside (tell : told → told' ∨ (wokenThread th reason).state ≠ .pended) :
    ThreadOk (wokenThread th reason) cpu call placed told' home := by
  apply ok.wake (fun _ same => same)
  · intro job stage is early
    have awake : Awake th :=
      ok.busy job stage is (by cases stage <;> simp_all [Stage.early, Stage.late])
      (by rintro rfl; simp [Stage.early] at early)
    refine (ok.early job stage is early).imp_right fun noted => ?_
    rw [(wokenThread_awake reason (ok.calm awake.up) awake).2]
    split
    · exact or_and_ne_zero reason noted
    · exact noted
  · intro job stage is late pended
    rcases (ok.late job stage is late (wokenThread_pended pended)).2 with here | signal
    · exact .inl here
    · exact .inr ((tell signal).resolve_right (absurd pended))

/-- The wake of a walker, after which the thread may be in no list. -/
theorem ThreadOk.wakeOwn (inTime : ∀ job stage, call = .io job stage → stage.early = true →
    th.state ≠ .ready)
    (right : ∀ job, home job → job.reason = reason) :
    ThreadOk (wokenThread th reason) cpu call placed' told home := by
  apply ok.wake (fun _ same => same)
  · intro job stage is early
    have awake : Awake th :=
      ok.busy job stage is (by cases stage <;> simp_all [Stage.early, Stage.late])
      (by rintro rfl; simp [Stage.early] at early)
    have up : th.state = .running := awake.resolve_right (inTime job stage is early)
    rw [(wokenThread_awake reason (ok.calm awake.up) awake).2, if_pos up,
      right job (ok.home job stage is (.inl early))]
    refine .inr (or_and_self_ne_zero _ ?_)
    rw [← right job (ok.home job stage is (.inl early))]
    unfold Job.reason Side.reason
    split <;> decide
  · intro job stage is late pended
    have reason := (ok.late job stage is late (wokenThread_pended pended)).1
    have still := wokenThread_still pended
    rw [reason, right job (ok.home job stage is (.inr late))] at still
    simp at still

omit ok

end Control

end Mecocoa.Pipe
