import Mecocoa.Pipe.Bytes
import Mecocoa.Pipe.Sleepers

/-! # No pipe waiter is forgotten

A thread that sleeps in a read or a write is in the list of its end, in a list that another
thread is about to wake, or about to be woken by a signal.  That needs care of the source
which it does not take everywhere: a thread must not link itself while it is still in a list
that was taken off, a wake must not come before the waiter has called `Block` unless it is
running, and a thread that was taken out of its list must not lose the core before it is
woken.
-/

namespace Mecocoa.Pipe

open Pipes Option List

open Lib (Run)
open Sched (BlockReason blockedThread wokenThread)
open Function (update update_self update_of_ne update_apply update_eq_self)

/-! ## The invariant -/

/-- The lists that the thread is in are those of the job. -/
def Pipes.Home (s : Pipes m n) (q : ListKey m n → List (Fin n)) (t : Fin n) (job : Job m) :
    Prop :=
  (∀ key, t ∈ q (.inl key) → key = (job.chan, job.side)) ∧ ∀ w, t ∈ q (.inr w) →
  (s.call w).walkSide = some job.side

def Pipes.Ok (s : Pipes m n) (q : ListKey m n → List (Fin n)) (t : Fin n) : Prop :=
  ThreadOk (s.control t) (s.onCpu t) (s.call t) (∃ key, t ∈ q key) (.unblock t ∈ s.signallers)
    (s.Home q t)

/-- `q` are the members of the lists. -/
structure WaitInv (s : Pipes m n) (q : ListKey m n → List (Fin n)) : Prop where
  linked : Linked s.waiters s.walks q
  ok : ∀ t, s.Ok q t
  content : ∀ key, q (.inl key) ≠ [] → s.nothingFor key

namespace WaitInv

variable {q q' : ListKey m n → List (Fin n)}

theorem start {capacity} {control} {onCpu}
    (awake : ∀ t, Awake (control t) ∧ (control t).blockReason = 0) :
    WaitInv (start capacity control onCpu : Pipes m n) fun _ => [] where
  linked := linked_empty
  ok := fun t => .of_none (fun _ => (awake t).2) fun _ => (awake t).1
  content := fun _ some => absurd rfl some

theorem members_eq (inv : WaitInv s q) (key : ListKey m n) : s.members key = q key := by
  have enough : (q key).length ≤ n := by simpa using inv.linked.holds.length_le key
  unfold members
  dsimp only
  rw [inv.linked.holds.chainFrom enough]
  rfl

theorem nil_of_walks (inv : WaitInv s q) (idle : s.walks t = none) : q (.inr t) = [] :=
  inv.linked.holds.eq_nil idle

/-- A step on one thread that leaves the channels alone and takes at most this thread out of
lists. -/
structure Touches (s s' : Pipes m n) (q q' : ListKey m n → List (Fin n)) (t : Fin n) : Prop where
  linked : Linked s'.waiters s.walks q'
  fewer : ∀ key, (q' key).Sublist (q key)
  members : ∀ x ≠ t, ∀ key, x ∈ q key → x ∈ q' key
  capacity : s'.capacity = s.capacity
  channels : s'.channels = s.channels
  signallers : ∀ x ≠ t, .unblock x ∈ s.signallers → .unblock x ∈ s'.signallers
  others : ∀ x ≠ t, s'.control x = s.control x ∧ s'.onCpu x = s.onCpu x ∧
    s'.call x = s.call x

variable (inv : WaitInv s q)

include inv

theorem touch (step : Touches s s' q q' t) (head : (s'.call t).walkHead = (s.call t).walkHead)
    (side : (s.call t).walkHead = none ∨ (s'.call t).walkSide = (s.call t).walkSide)
    (own : ThreadOk (s'.control t) (s'.onCpu t) (s'.call t) (∃ key, t ∈ q' key)
      (.unblock t ∈ s'.signallers) (s.Home q t)) : WaitInv s' q' := by
  have walks : s'.walks = s.walks := by
    funext x
    by_cases same : x = t
    · rw [same]
      exact head
    · exact congrArg Call.walkHead (step.others x same).2.2
  have home : ∀ x job, s.Home q x job → s'.Home q' x job := by
    rintro x job ⟨ends, walkers⟩
    refine ⟨fun key there => ends key ((step.fewer _).subset there), fun w there => ?_⟩
    have old := (step.fewer _).subset there
    by_cases same : w = t
    · subst same
      rcases side with idle | kept
      · rw [inv.nil_of_walks idle] at old
        cases old
      · rw [kept]
        exact walkers w old
    · rw [(step.others w same).2.2]
      exact walkers w old
  refine ⟨walks ▸ step.linked, fun x => ?_, ?_⟩
  · by_cases same : x = t
    · subst same
      exact own.mono id id (home x)
    · obtain ⟨control, onCpu, call⟩ := step.others x same
      unfold Ok
      rw [control, onCpu, call]
      exact (inv.ok x).mono (fun ⟨key, there⟩ => ⟨key, step.members x same key there⟩)
        (step.signallers x same) (home x)
  · rintro ⟨c, side⟩ some
    have before := inv.content (c, side) fun none => some (sublist_nil.mp (none ▸ step.fewer _))
    cases side <;> simpa only [nothingFor, step.channels, step.capacity] using before

/-- A step of one thread that leaves the lists alone. -/
theorem setThread (t : Fin n) {onCpu} {call}
    (own : ThreadOk th onCpu call (∃ key, t ∈ q key) (.unblock t ∈ s.signallers) (s.Home q t))
    (head : call.walkHead = (s.call t).walkHead)
    (side : (s.call t).walkHead = none ∨ call.walkSide = (s.call t).walkSide) : WaitInv { s with
      control := update s.control t th
      onCpu := update s.onCpu t onCpu
      call := update s.call t call } q := by
  refine inv.touch (t := t) ⟨inv.linked, fun _ => Sublist.refl _, fun _ _ _ there => there, rfl,
    rfl,
    fun _ _ there => there, fun x other =>
    ⟨update_of_ne other .., update_of_ne other .., update_of_ne other ..⟩⟩ ?_ ?_ ?_
  · simpa using head
  · simpa using side
  · simpa using own

/-- The thread goes to another stage, and neither walked a list nor will. -/
theorem setCall {call} (idle : (s.call t).walkHead = none) (idle' : call.walkHead = none)
    (own : ThreadOk (s.control t) (s.onCpu t) call (∃ key, t ∈ q key)
      (.unblock t ∈ s.signallers) (s.Home q t)) :
    WaitInv (s.setCall t call) q := by
  simpa [Pipes.setCall] using inv.setThread t own (idle'.trans idle.symm) (.inl idle)

theorem ret (idle : (s.call t).walkHead = none)
    (awake : s.onCpu t = true → Awake (s.control t)) : WaitInv (s.ret t job outcome) q := by
  have called :=
    inv.setCall idle (show Call.none.walkHead = none from rfl) (.of_none (inv.ok t).calm awake)
  exact ⟨called.linked, called.ok, called.content⟩

/-- `Block`, `Unblock` and switches of one thread. -/
theorem setControl (t : Fin n) {onCpu}
    (own : ThreadOk th onCpu (s.call t) (∃ key, t ∈ q key) (.unblock t ∈ s.signallers)
      (s.Home q t)) :
    WaitInv { s with control := update s.control t th, onCpu := update s.onCpu t onCpu } q := by
  simpa using inv.setThread t own rfl (.inr rfl)

theorem unblock (t : Fin n)
    (own : ThreadOk (wokenThread (s.control t) reason) (s.onCpu t) (s.call t) (∃ key, t ∈ q key)
      (.unblock t ∈ s.signallers) (s.Home q t)) : WaitInv (s.unblock t reason) q := by
  simpa [Pipes.unblock] using inv.setThread t own rfl (.inr rfl)

omit inv

/-! ### Lists that change -/

/-- The members of the lists may change as long as no sleeper is dropped and none gets another
list. -/
structure Moved (s s' : Pipes m n) (q q' : ListKey m n → List (Fin n)) (x : Fin n) : Prop where
  kept : (∃ key, x ∈ q key) → ∃ key, x ∈ q' key
  ends : ∀ key, x ∈ q' (.inl key) → x ∈ q (.inl key)
  walkers : ∀ w, x ∈ q' (.inr w) → x ∈ q (.inr w) ∧
    (s'.call w).walkSide = (s.call w).walkSide ∨
    ∃ key, x ∈ q (.inl key) ∧ (s'.call w).walkSide = some key.2

theorem Moved.home (moved : Moved s s' q q' x) (home : s.Home q x job) :
    s'.Home q' x job := by
  refine ⟨fun key there => home.1 key (moved.ends key there), fun w there => ?_⟩
  rcases moved.walkers w there with ⟨old, same⟩ | ⟨key, old, now⟩
  · rw [same]
    exact home.2 w old
  · rw [now, home.1 key old]

theorem addWaiter (inv : WaitInv s q) (inCall : s.call t = .io job .enter)
    (absent : ∀ key, t ∉ q key) (nothing : s.nothingFor (job.chan, job.side)) :
    WaitInv (s.addWaiter t job)
      (update q (.inl (job.chan, job.side)) (t :: q (.inl (job.chan, job.side)))) := by
  have others : ∀ x ≠ t, (s.addWaiter t job).call x = s.call x := fun x other =>
    update_of_ne other ..
  have now : (s.addWaiter t job).call t = .io job .added := update_self ..
  have walks : (s.addWaiter t job).walks = s.walks := by
    funext x
    unfold walks
    by_cases same : x = t
    · rw [same, now, inCall]
      rfl
    · rw [others x same]
  refine ⟨by rw [walks]; exact inv.linked.add absent _, fun x => ?_, ?_⟩
  · by_cases same : x = t
    · subst same
      unfold Ok
      rw [now]
      have before := inv.ok x
      unfold Ok at before
      rw [inCall] at before
      refine before.added ⟨.inl (job.chan, job.side), by simp⟩
        ⟨fun key there => ?_, fun w there => ?_⟩
      · rw [mem_update_inl] at there
        split at there
        · assumption
        · exact absurd there (absent _)
      · rw [update_of_ne (by simp)] at there
        exact absurd there (absent _)
    · have moved : Moved s (s.addWaiter t job) q
          (update q (.inl (job.chan, job.side)) (t :: q (.inl (job.chan, job.side)))) x := by
        refine ⟨?_, fun key there => ?_, fun w there => .inl ?_⟩
        · rintro ⟨key, there⟩
          refine ⟨key, ?_⟩
          by_cases here : key = .inl (job.chan, job.side)
          · rw [here, update_self]
            exact mem_cons_of_mem t (here ▸ there)
          · rwa [update_of_ne here]
        · rw [mem_update_inl] at there
          split at there
          · rename_i here
            exact here ▸ (mem_cons.mp there).resolve_left same
          · exact there
        · rw [update_of_ne (by simp)] at there
          have notSelf : w ≠ t ∨ w = t := ne_or_eq w t
          rcases notSelf with other | self
          · exact ⟨there, by rw [others w other]⟩
          · rw [self, inv.nil_of_walks (by rw [Pipes.walks, inCall]; rfl)] at there
            cases there
      unfold Ok
      rw [others x same]
      exact (inv.ok x).mono moved.kept id fun _ => moved.home
  · intro key some
    by_cases here : key = (job.chan, job.side)
    · rw [here]
      exact nothing
    · rw [update_of_ne (fun is => here (Sum.inl.inj is))] at some
      exact inv.content key some

/-- A thread takes the list of an end off, to wake its members. -/
theorem takeWaiters (inv : WaitInv s q) {chan} {accepted taken}
    {call} (idle : (s.call t).walkHead = none)
    (awake : Awake (s.control t)) (walkHead : ∀ head, (call head).walkHead = head)
    (walkSide : ∀ head, (call head).walkSide = some side)
    (plain : ∀ head job stage, call head = .io job stage → stage.early = false ∧
      stage.late = false)
    (content : s.nothingFor (c, side.other) → (s.setChannel c chan).nothingFor (c, side.other))
    (ran : { s with channels := update s.channels c chan, accepted, taken }.takeWaiters
      (c, side) call t = some s') :
    WaitInv s' (update (update q (.inl (c, side)) []) (.inr t) (q (.inl (c, side))).reverse) := by
  obtain ⟨w', head, took, linked⟩ := inv.linked.take t (c, side)
  obtain ⟨r, took', rfl⟩ := map_eq_some_iff.mp ran
  obtain rfl := some.inj (took.symm.trans took')
  have now : ∀ x, update s.call t (call head) x = if x = t then call head else s.call x :=
      fun x => by
    rw [update_apply]
  have walks : update s.walks t head = fun x => (update s.call t (call head) x).walkHead := by
    funext x
    rw [now, update_apply]
    split
    · exact (walkHead head).symm
    · rfl
  rw [walks] at linked
  refine ⟨linked, fun x => ?_, ?_⟩
  · have moved :
      Moved s ({ s.setChannel c chan with accepted, taken, waiters := w' }.setCall t (call head)) q
        (update (update q (.inl (c, side)) []) (.inr t) (q (.inl (c, side))).reverse) x := by
      refine ⟨?_, fun k there => ?_, fun w there => ?_⟩
      · rintro ⟨k, there⟩
        by_cases here : k = .inl (c, side)
        · exact ⟨.inr t, by simpa [here] using there⟩
        · refine ⟨k, ?_⟩
          have notOwn : k ≠ .inr t := by
            rintro rfl
            rw [inv.nil_of_walks idle] at there
            cases there
          rwa [update_of_ne notOwn, update_of_ne here]
      · rw [update_of_ne (by simp), mem_update_inl] at there
        split at there
        · cases there
        · exact there
      · change _ ∧ (update s.call t (call head) w).walkSide = _ ∨ ∃ key, _ ∧
          (update s.call t (call head) w).walkSide = _
        by_cases own : w = t
        · subst own
          rw [update_self, mem_reverse] at there
          exact .inr ⟨_, there, by rw [update_self, walkSide]⟩
        · rw [update_of_ne (by simpa using own), update_of_ne (by simp)] at there
          exact .inl ⟨there, by rw [update_of_ne own]⟩
    unfold Ok
    change ThreadOk (s.control x) (s.onCpu x) (update s.call t (call head) x) _ _ _
    by_cases same : x = t
    · subst same
      rw [update_self]
      exact .of_awake awake (inv.ok x).calm (plain head)
    · rw [update_of_ne same]
      exact (inv.ok x).mono moved.kept id fun _ => moved.home
  · intro k some
    rw [update_of_ne (by simp)] at some
    by_cases here : k = (c, side)
    · simp [here] at some
    · rw [update_of_ne (fun is => here (Sum.inl.inj is))] at some
      have before := inv.content k some
      obtain ⟨c', side'⟩ := k
      by_cases same : c' = c
      · obtain rfl : side' = side.other := by cases side <;> cases side' <;> simp_all [Side.other]
        subst same
        have nothing := content before
        cases side <;> exact nothing
      · cases side' <;> simpa [nothingFor, Pipes.setCall, update_of_ne same] using before

/-- A walker wakes the first of its list. -/
theorem wakeFirst (inv : WaitInv s q) (walking : (s.call t).walkHead = some first)
    (onSide : (s.call t).walkSide = some side) (awake : Awake (s.control t))
    (inTime : InTime s first) {call} (walkHead : call.walkHead = s.waiters.lists.next first)
    (walkSide : call.walkSide = some side)
    (plain : ∀ job stage, call = .io job stage → stage.early = false ∧ stage.late = false) :
    ∃ q', WaitInv ((s.wakeFirst first side.reason).setCall t call) q' := by
  obtain ⟨rest, contents, linked⟩ := inv.linked.walk walking
  have walks : update s.walks t (s.waiters.lists.next first) = fun x =>
      (update s.call t call x).walkHead := by
    funext x
    rw [update_apply, update_apply]
    split
    · exact walkHead.symm
    · rfl
  have sides : ∀ w, (update s.call t call w).walkSide = (s.call w).walkSide := by
    intro w
    by_cases own : w = t
    · rw [own, update_self, walkSide, onSide]
    · rw [update_of_ne own]
  have fewer : ∀ key, ∀ x ∈ update q (.inr t) rest key, x ∈ q key := by
    intro key x there
    by_cases own : key = .inr t
    · rw [own, update_self] at there
      simp [own, contents, there]
    · rwa [update_of_ne own] at there
  have home : ∀ x job, s.Home q x job →
      ((s.wakeFirst first side.reason).setCall t call).Home (update q (.inr t) rest) x job := by
    rintro x job ⟨ends, walkers⟩
    exact ⟨fun key there => ends key (fewer _ x there),
      fun w there => (sides w).trans (walkers w (fewer _ x there))⟩
  rw [walks] at linked
  refine ⟨update q (.inr t) rest, linked, fun x => ?_, ?_⟩
  · unfold Ok
    change ThreadOk (update s.control first (wokenThread (s.control first) side.reason) x)
      (s.onCpu x)
      (update s.call t call x) _ _ _
    by_cases own : x = t
    · -- The walker itself is awake, also if it is the first of its list.
      subst own
      rw [update_self]
      refine .of_awake ?_ ?_ plain
      · by_cases itself : x = first
        · rw [itself, update_self]
          exact (itself ▸ awake).woken (itself ▸ (inv.ok x).calm awake.up) _
        · rwa [update_of_ne itself]
      · by_cases itself : x = first
        · rw [itself, update_self]
          exact Sched.wokenThread_calm (inv.ok first).calm _
        · rw [update_of_ne itself]
          exact (inv.ok x).calm
    · rw [update_of_ne own]
      by_cases woken : x = first
      · subst woken
        rw [update_self]
        have right : ∀ job, s.Home q x job → job.reason = side.reason := by
          intro job atHome
          have same := atHome.2 t (by simp [contents])
          rw [onSide] at same
          unfold Job.reason
          rw [some.inj same]
        refine ((inv.ok x).wakeOwn (fun job stage is early => ?_) right).mono id id (home x)
        unfold InTime at inTime
        rw [is] at inTime
        exact inTime early
      · rw [update_of_ne woken]
        refine (inv.ok x).mono ?_ id (home x)
        rintro ⟨key, there⟩
        refine ⟨key, ?_⟩
        by_cases here : key = .inr t
        · rw [here, contents] at there
          rw [here, update_self]
          exact (mem_cons.mp there).resolve_left woken
        · rwa [update_of_ne here]
  · intro key some
    rw [update_of_ne (by simp)] at some
    have nothing := inv.content key some
    obtain ⟨c, side⟩ := key
    cases side <;> exact nothing

/-! ### Threads taken out of their lists -/

/-- The lists without a thread; those that are walked keep it. -/
def dropped (q : ListKey m n → List (Fin n)) (t : Fin n) : ListKey m n → List (Fin n)
  | .inl key => (q (.inl key)).erase t
  | .inr w => q (.inr w)

theorem cancelPipeWait (inv : WaitInv s q) (ran : s.cancelPipeWait t = some s') :
    ∃ waiters, s' = { s with waiters } ∧ Linked waiters s.walks (dropped q t) := by
  have absent : ∀ c side, s.waiters.channel t ≠ some c → t ∉ q (.inl (c, side)) :=
    fun c side other there => other ((inv.linked.channel t c).mpr ⟨side, there⟩)
  unfold Pipes.cancelPipeWait at ran
  split at ran
  · rename_i nowhere
    cases ran
    have none : s.waiters.channel t = none := (or_eq_none_iff.mp nowhere).1
    have same : dropped q t = q := by
      funext key
      rcases key with ⟨c, side⟩ | w
      · exact erase_of_not_mem (absent c side (by simp [none]))
      · rfl
    rw [same]
    exact ⟨s.waiters, rfl, inv.linked⟩
  · rename_i c found
    obtain ⟨w₁, removed₁, linked₁⟩ := inv.linked.removeWaiter (c, .reader) t
    obtain ⟨w₂, removed₂, linked₂⟩ := linked₁.removeWaiter (c, .writer) t
    rw [removed₁, bind_some, removed₂, map_some] at ran
    refine ⟨w₂, (some.inj ran).symm, ?_⟩
    have same :
      dropped q t = update (update q (.inl (c, .reader)) ((q (.inl (c, .reader))).erase t))
        (.inl (c, .writer)) ((q (.inl (c, .writer))).erase t) := by
      funext key
      rcases key with ⟨c', side⟩ | w
      · by_cases here : c' = c
        · subst here
          cases side <;> simp [dropped]
        · have other : s.waiters.channel t ≠ some c' := by
            intro elsewhere
            rw [elsewhere, some_or] at found
            exact here (some.inj found)
          simp [dropped, here, erase_of_not_mem (absent c' side other)]
      · simp [dropped]
    rw [same]
    rwa [update_of_ne (by simp)] at linked₂

theorem touches_dropped {waiters} (linked : Linked waiters s.walks (dropped q t)) (s' : Pipes m n)
    (is : s'.waiters = waiters) (capacity : s'.capacity = s.capacity)
    (channels : s'.channels = s.channels)
    (signallers : ∀ x ≠ t, .unblock x ∈ s.signallers → .unblock x ∈ s'.signallers)
    (others : ∀ x ≠ t, s'.control x = s.control x ∧ s'.onCpu x = s.onCpu x ∧
      s'.call x = s.call x) :
    Touches s s' q (dropped q t) t := by
  refine ⟨is ▸ linked, ?_, ?_, capacity, channels, signallers, others⟩
  · rintro (key | w)
    · exact erase_sublist
    · exact Sublist.refl _
  · rintro x other (key | w) there
    · exact (mem_erase_of_ne other).mpr there
    · exact there

/-! ### Calls -/

section Calls

theorem idle (inCall : s.call t = .io job stage) (calm : ∀ head, stage ≠ .wake head) :
    (s.call t).walkHead = none := by
  rw [inCall]
  cases stage <;> first | rfl | exact absurd rfl (calm _)

variable (inv : WaitInv s q)

include inv

theorem waits (inCall : s.call t = .io job .enter)
    (careful : s.willWait job → ∀ key, t ∉ s.members key) (waits : s.willWait job) :
    ∃ q', WaitInv (s.addWaiter t job) q' := by
  refine ⟨_, inv.addWaiter inCall (fun key => inv.members_eq key ▸ careful waits key) ?_⟩
  unfold willWait at waits
  unfold Job.side
  cases transfer : job.transfer <;> exact (transfer ▸ waits).2

theorem readSection {count} {dst} (inCall : s.call t = .io job .enter)
    (reads : job.transfer = .read count dst)
    (careful : s.willWait job → ∀ key, t ∉ s.members key)
    (ran : s.readSection t job count dst = some s') : ∃ q', WaitInv s' q' := by
  have awake : Awake (s.control t) := (inv.ok t).busy job .enter inCall rfl (by simp)
  have idle := idle inCall nofun
  unfold Pipes.readSection at ran
  dsimp only at ran
  split at ran
  · rename_i more
    split at ran
    · rename_i empty
      split at ran
      · cases ran
        exact ⟨q, inv.ret idle fun _ => awake⟩
      · rename_i writers
        cases ran
        refine inv.waits inCall careful ?_
        rw [willWait, reads]
        exact ⟨more, empty, writers⟩
    · rename_i nonempty
      refine ⟨_, inv.takeWaiters idle awake (fun _ => rfl) (fun _ => ?_) ?_ ?_ ran⟩
      · simp [Call.walkSide, Job.side, Transfer.side, Side.other]
      · rintro _ _ _ ⟨⟩
        exact ⟨rfl, rfl⟩
      · exact fun before => absurd before.1 nonempty
  · cases ran
    exact ⟨q, inv.ret idle fun _ => awake⟩

theorem writeSection {src} {written} (inCall : s.call t = .io job .enter)
    (writes : job.transfer = .write src written)
    (careful : s.willWait job → ∀ key, t ∉ s.members key)
    (ran : s.writeSection t job src written = some s') : ∃ q', WaitInv s' q' := by
  have awake : Awake (s.control t) := (inv.ok t).busy job .enter inCall rfl (by simp)
  have idle := idle inCall nofun
  unfold Pipes.writeSection at ran
  dsimp only at ran
  split at ran
  · rename_i more
    split at ran
    · cases ran
      exact ⟨q, inv.ret idle fun _ => awake⟩
    rename_i readers
    split at ran
    · rename_i full
      cases ran
      refine inv.waits inCall careful ?_
      rw [willWait, writes]
      exact ⟨more, full, readers⟩
    · rename_i free
      refine ⟨_, inv.takeWaiters idle awake (fun _ => rfl) (fun _ => ?_) ?_ ?_ ran⟩
      · simp [Call.walkSide, Job.side, Transfer.side, Side.other]
      · rintro _ _ _ ⟨⟩
        exact ⟨rfl, rfl⟩
      · exact fun before => absurd before.1 free
  · cases ran
    exact ⟨q, inv.ret idle fun _ => awake⟩

theorem own (inCall : s.call t = .io job stage) :
    ThreadOk (s.control t) (s.onCpu t) (.io job stage) (∃ key, t ∈ q key)
      (.unblock t ∈ s.signallers) (s.Home q t) :=
  inCall ▸ inv.ok t

theorem cancelStep {call} {returned}
    (idle : (s.call t).walkHead = none) (idle' : call.walkHead = none) {waiters}
    (linked : Linked waiters s.walks (dropped q t))
    (own : ThreadOk (s.control t) (s.onCpu t) call
      (∃ key, t ∈ dropped q t key) (.unblock t ∈ s.signallers) (s.Home q t)) :
    WaitInv { s with waiters, returned, call := update s.call t call } (dropped q t) := by
  have now : update s.call t call t = call := update_self ..
  have step :=
    touches_dropped linked { s with waiters, returned, call := update s.call t call } rfl rfl rfl
    (fun _ _ there => there) fun x other => ⟨rfl, rfl, update_of_ne other ..⟩
  apply inv.touch step
  · dsimp only
    rw [now, idle', idle]
  · exact .inl idle
  · dsimp only
    rw [now]
    exact own

theorem ioStep {stage} (on : s.onCpu t = true) (inCall : s.call t = .io job stage)
    (careful : Careful s (.step t)) (ran : s.ioStep t job stage = some s') :
    ∃ q', WaitInv s' q' := by
  have own := inv.own inCall
  have idle := idle inCall
  cases stage with
  | enter =>
    simp only [Careful, inCall] at careful
    cases transfer : job.transfer with
    | read count dst =>
      simp only [Pipes.ioStep, transfer] at ran
      exact inv.readSection inCall transfer careful ran
    | write src written =>
      simp only [Pipes.ioStep, transfer] at ran
      exact inv.writeSection inCall transfer careful ran
  | added =>
    cases ran
    split
    · refine ⟨q, inv.setCall (idle (by simp)) rfl
        (.of_awake (own.busy job _ rfl rfl (by simp)) own.calm ?_)⟩
      rintro _ _ ⟨⟩
      exact ⟨rfl, rfl⟩
    · exact ⟨q, inv.setCall (idle (by simp)) rfl own.toBlock⟩
  | cancel =>
    obtain ⟨s₁, cancelled, rfl⟩ := map_eq_some_iff.mp ran
    obtain ⟨waiters, rfl, linked⟩ := inv.cancelPipeWait cancelled
    have awake : Awake (s.control t) := own.busy job _ rfl rfl (by simp)
    exact ⟨_, inv.cancelStep (idle (by simp)) rfl linked (.of_none own.calm fun _ => awake)⟩
  | block =>
    cases ran
    have blocked := inv.setThread t own.block (idle (by simp)).symm (.inl (idle (by simp)))
    exact ⟨q, by simpa [Pipes.setCall, Pipes.block] using blocked⟩
  | check =>
    cases ran
    split
    · exact ⟨q, inv.setCall (idle (by simp)) rfl (own.restage rfl rfl fun _ => .inr (by simp))⟩
    · rename_i up
      refine ⟨q,
        inv.setCall (idle (by simp)) rfl
        (.of_awake ((own.live (by simp)).resolve_right up) own.calm ?_)⟩
      rintro _ _ ⟨⟩
      exact ⟨rfl, rfl⟩
  | look =>
    cases ran
    split
    · exact ⟨q, inv.setCall (idle (by simp)) rfl (own.restage rfl rfl fun _ => .inr (by simp))⟩
    · exact ⟨q, inv.setCall (idle (by simp)) rfl (own.restage rfl rfl fun _ => .inr (by simp))⟩
  | cancelBlocked =>
    obtain ⟨s₁, cancelled, rfl⟩ := map_eq_some_iff.mp ran
    obtain ⟨waiters, rfl, linked⟩ := inv.cancelPipeWait cancelled
    refine ⟨_,
      inv.cancelStep (idle (by simp)) rfl linked
      ⟨own.calm, fun _ => own.live (by simp), ?_, by simp, ?_,
      ?_, ?_, ?_, ?_⟩⟩
    · rintro _ _ ⟨⟩ - notSelf
      exact absurd rfl notSelf
    · exact fun _ => .inr ⟨job, _, rfl, by simp⟩
    · rintro _ _ ⟨⟩ waits
      simp [Stage.early, Stage.late] at waits
    · rintro _ _ ⟨⟩ early
      simp [Stage.early] at early
    · rintro _ _ ⟨⟩ late
      simp [Stage.late] at late
    · rintro _ ⟨⟩ pended
      exact ⟨on, (own.late job _ rfl rfl pended).1⟩
  | unblockSelf =>
    cases ran
    have awake : Awake (wokenThread (s.control t) job.reason) := by
      rcases own.live (by simp) with up | pended
      · exact up.woken (own.calm up.up) _
      · have reason := (own.own job rfl pended).2
        unfold wokenThread Awake
        simp [pended, reason]
    have woken := inv.setThread t (.of_none (Sched.wokenThread_calm own.calm job.reason)
      fun (_ : s.onCpu t = true) => awake) (idle (by simp)).symm (.inl (idle (by simp)))
    rw [update_eq_self] at woken
    exact ⟨q, woken.linked, woken.ok, woken.content⟩
  | sleep =>
    cases ran
    have yields : ThreadOk _ _ (.io job .woken) _ _ _ :=
      (own.yields (by simp)).restage rfl rfl (by simp)
    exact ⟨q, inv.setThread t yields (idle (by simp)).symm (.inl (idle (by simp)))⟩
  | woken =>
    have awake : Awake (s.control t) := by
      apply own.awake_of_running on
      rintro _ _ ⟨⟩
      rfl
    simp only [Pipes.ioStep] at ran
    split at ran
    · cases ran
      exact ⟨q, inv.ret (idle (by simp)) fun _ => awake⟩
    · cases ran
      refine ⟨q, inv.setCall (idle (by simp)) rfl (.of_awake awake own.calm ?_)⟩
      rintro _ _ ⟨⟩
      exact ⟨rfl, rfl⟩
  | wake head =>
    have awake : Awake (s.control t) := own.busy job _ rfl rfl (by simp)
    cases head with
    | none =>
      cases ran
      refine ⟨q, inv.setCall (by rw [inCall]; rfl) rfl (.of_awake awake own.calm ?_)⟩
      rintro _ _ ⟨⟩
      exact ⟨rfl, rfl⟩
    | some first =>
      simp only [Careful, inCall] at careful
      cases ran
      refine inv.wakeFirst (by rw [inCall]; rfl) (by rw [inCall]; rfl) awake careful rfl rfl ?_
      rintro _ _ ⟨⟩
      exact ⟨rfl, rfl⟩

theorem callStep (on : s.onCpu t = true) (careful : Careful s (.step t))
    (ran : s.callStep t = some s') : ∃ q', WaitInv s' q' := by
  have own := inv.ok t
  unfold Ok at own
  unfold Pipes.callStep at ran
  split at ran
  · cases ran
  · rename_i job stage inCall
    exact inv.ioStep on inCall careful ran
  · rename_i side inCall
    cases ran
    exact ⟨q,
      inv.setCall (by rw [inCall]; rfl) rfl
      (.of_none own.calm fun _ => own.closing side none inCall)⟩
  · rename_i side first inCall
    cases ran
    simp only [Careful, inCall] at careful
    exact inv.wakeFirst (by rw [inCall]; rfl) (by rw [inCall]; rfl)
      (own.closing side _ inCall) careful rfl rfl
      fun _ _ is => (nomatch is)

omit inv

end Calls

/-! ### Events -/

variable (inv : WaitInv s q)

include inv

/-- The channels change, but not for those who wait. -/
theorem setChannel
    (content : ∀ key, s.nothingFor key → (s.setChannel c chan).nothingFor key) :
    WaitInv (s.setChannel c chan) q :=
  ⟨inv.linked, inv.ok, fun key some => content key (inv.content key some)⟩

omit inv in
theorem nothingFor_setCount (c : Fin m) (side : Side) {count} (some : count ≠ 0)
    (key : Fin m × Side) (nothing : s.nothingFor key) :
    (s.setChannel c ((s.channels c).setCount side count)).nothingFor key := by
  obtain ⟨c', side'⟩ := key
  by_cases here : c' = c
  · subst here
    cases side' <;> cases side <;>
      simp_all [Pipes.nothingFor, Pipes.setChannel, Channel.setCount]
  · cases side' <;> simpa [Pipes.nothingFor, Pipes.setChannel, update_of_ne here] using nothing

theorem closePipe {c} {side} (may : s.mayCall t = true)
    (ran : s.closePipe t c side = some s') : ∃ q', WaitInv s' q' := by
  simp only [mayCall, Bool.and_eq_true, decide_eq_true_eq] at may
  have idle : (s.call t).walkHead = none := by rw [may.2]; rfl
  have awake : Awake (s.control t) := (inv.ok t).awake_of_running may.1 (by simp [may.2])
  unfold Pipes.closePipe at ran
  dsimp only at ran
  split at ran
  · refine ⟨_, inv.takeWaiters idle awake (fun _ => rfl) (fun _ => rfl)
      (by rintro _ _ _ ⟨⟩) ?_ ran⟩
    cases side <;> simp +contextual [nothingFor, Pipes.setChannel, Channel.setCount, Side.other]
  · rename_i more
    cases ran
    have kept := inv.setChannel (nothingFor_setCount c side more)
    exact ⟨q,
      kept.setCall idle rfl (.of_awake awake (inv.ok t).calm fun _ _ is => (nomatch is))⟩

theorem signalStep {i} (careful : Careful s (.signalStep i))
    (ran : s.signalStep i = some s') : ∃ q', WaitInv s' q' := by
  obtain ⟨signaller, here, rest⟩ := bind_eq_some_iff.mp ran
  obtain ⟨small, is⟩ := List.getElem?_eq_some_iff.mp here
  cases signaller with
  | cancel t =>
    simp only [Careful, here] at careful
    obtain ⟨s₁, cancelled, rfl⟩ := map_eq_some_iff.mp rest
    obtain ⟨waiters, rfl, linked⟩ := inv.cancelPipeWait cancelled
    have keep : ∀ x, .unblock x ∈ s.signallers →
        .unblock x ∈ s.signallers.set i (.unblock t) := by
      intro x there
      obtain ⟨j, bound, at_⟩ := mem_iff_getElem.mp there
      have apart : i ≠ j := by
        rintro rfl
        rw [is] at at_
        cases at_
      exact mem_iff_getElem.mpr
        ⟨j, by simpa using bound, by rw [getElem_set_of_ne apart]; exact at_⟩
    have told : .unblock t ∈ s.signallers.set i (.unblock t) := mem_set small _
    have step :=
      touches_dropped linked { s with waiters, signallers := s.signallers.set i (.unblock t) } rfl
        rfl rfl
      (fun x _ => keep x) fun x other => ⟨rfl, rfl, rfl⟩
    refine ⟨_, inv.touch step rfl (.inr rfl) ?_⟩
    have own := inv.ok t
    have up : ¬ Awake (s.control t) := fun awake => awake.up careful
    refine ⟨own.calm, own.live, own.busy, own.closing, own.running, own.home, ?_, ?_, own.own⟩
    · intro job stage is early
      exact absurd (own.busy job stage is (by cases stage <;> simp_all [Stage.early, Stage.late])
        (by rintro rfl; simp [Stage.early] at early)) up
    · intro job stage is late pended
      exact ⟨(own.late job stage is late pended).1, .inr told⟩
  | unblock t =>
    cases rest
    have keep : ∀ x ≠ t, .unblock x ∈ s.signallers →
        .unblock x ∈ s.signallers.eraseIdx i := by
      intro x other there
      obtain ⟨j, bound, at_⟩ := mem_iff_getElem.mp there
      have apart : j ≠ i := by
        rintro rfl
        rw [is] at at_
        cases at_
        exact other rfl
      exact mem_eraseIdx_iff_getElem.mpr ⟨j, bound, apart, at_⟩
    have step :
        Touches s
          ({ s with signallers := s.signallers.eraseIdx i }.unblock t (s.control t).blockReason) q q
          t :=
      ⟨inv.linked, fun _ => Sublist.refl _, fun _ _ _ there => there, rfl, rfl, keep,
        fun x other => ⟨update_of_ne other .., rfl, rfl⟩⟩
    refine ⟨q, inv.touch step rfl (.inr rfl) ?_⟩
    have woken : ThreadOk (wokenThread (s.control t) (s.control t).blockReason) (s.onCpu t)
      (s.call t)
        (∃ key, t ∈ q key) (.unblock t ∈ s.signallers.eraseIdx i) (s.Home q t) :=
      (inv.ok t).wakeAside fun _ => .inr fun pended => wokenThread_still pended (by simp)
    simpa [Pipes.unblock] using woken

theorem die (careful : Careful s (.die t)) (ran : (Event.die t).exec s = some s') :
    ∃ q', WaitInv s' q' := by
  obtain ⟨s₁, cancelled, rfl⟩ := map_eq_some_iff.mp ran
  obtain ⟨waiters, rfl, linked⟩ := inv.cancelPipeWait cancelled
  have idle : (s.call t).walkHead = none := careful.2
  have absent : ∀ key, t ∉ dropped q t key := by
    rintro (key | w)
    · exact (inv.linked.holds.nodup (.inl key)).not_mem_erase
    · have apart := careful.1 w
      rw [inv.members_eq] at apart
      exact apart
  have step := touches_dropped (linked.clearWaiter absent)
    { s with
      waiters := waiters.pipeClearWaiter t
      call := update s.call t .none
      onCpu := update s.onCpu t false
      control := update s.control t { s.control t with state := .invalid, blockReason := 0 } }
    rfl rfl rfl (fun _ _ there => there)
    fun x other => ⟨update_of_ne other .., update_of_ne other .., update_of_ne other ..⟩
  refine ⟨_, inv.touch step ?_ (.inl idle) ?_⟩
  · simpa [Call.walkHead] using idle.symm
  · simp only [update_self]
    exact .of_none (fun _ => rfl) fun on => nomatch on

theorem beginCall {c} (may : s.mayCall t = true) :
    WaitInv (s.beginCall t c transfer) q := by
  simp only [mayCall, Bool.and_eq_true, decide_eq_true_eq] at may
  have idle : (s.call t).walkHead = none := by rw [may.2]; rfl
  have awake : Awake (s.control t) := (inv.ok t).awake_of_running may.1 (by simp [may.2])
  have own : ThreadOk (s.control t) (s.onCpu t) (.io ⟨s.nextId, c, transfer⟩ .enter : Call m n)
    (∃ key, t ∈ q key)
      (.unblock t ∈ s.signallers) (s.Home q t) :=
    .of_awake awake (inv.ok t).calm (by rintro _ _ ⟨⟩; simp [Stage.early, Stage.late])
  have called := inv.setCall idle rfl own
  exact ⟨called.linked, called.ok, called.content⟩

theorem pend (may : s.mayCall t = true) (reason : BlockReason) :
    WaitInv ((s.block t reason).yieldCpu t) q := by
  simp only [mayCall, Bool.and_eq_true, decide_eq_true_eq] at may
  have awake : Awake (s.control t) := (inv.ok t).awake_of_running may.1 (by simp [may.2])
  have calm : (blockedThread (s.control t) reason).state ≠ .pended →
      (blockedThread (s.control t) reason).blockReason = 0 := by
    unfold blockedThread
    split
    · simp [(inv.ok t).calm awake.up]
    · simp
  have own : ThreadOk (yielded (blockedThread (s.control t) reason)) false (s.call t)
    (∃ key, t ∈ q key)
      (.unblock t ∈ s.signallers) (s.Home q t) := by
    rw [may.2]
    exact .of_none (fun up => calm fun pended => up (yielded_pended.mpr pended)) fun on =>
      nomatch on
  simpa [block, yieldCpu, yielded] using inv.setControl t own

theorem step {e} (careful : Careful s e) (ran : e.exec s = some s') : ∃ q', WaitInv s' q' := by
  cases e with
  | readPipe t c count =>
    obtain ⟨may, ⟨⟩⟩ := ite_none_right_eq_some.mp ran
    exact ⟨q, inv.beginCall may⟩
  | writePipe t c src =>
    obtain ⟨may, ⟨⟩⟩ := ite_none_right_eq_some.mp ran
    exact ⟨q, inv.beginCall may⟩
  | closePipe t c side =>
    obtain ⟨may, is⟩ := ite_none_right_eq_some.mp ran
    exact inv.closePipe may.1 is
  | clone c side =>
    obtain ⟨may, ⟨⟩⟩ := ite_none_right_eq_some.mp ran
    exact ⟨q, inv.setChannel (nothingFor_setCount c side (Nat.succ_ne_zero _))⟩
  | step t =>
    obtain ⟨on, is⟩ := ite_none_right_eq_some.mp ran
    exact inv.callStep on careful is
  | preempt t =>
    obtain ⟨on, ⟨⟩⟩ := ite_none_right_eq_some.mp ran
    refine ⟨q, inv.setControl t ((inv.ok t).yields ?_)⟩
    intro job inCall
    simpa only [Careful, inCall] using careful
  | resume t =>
    obtain ⟨off, ⟨⟩⟩ := ite_none_right_eq_some.mp ran
    exact ⟨q, inv.setControl t ((inv.ok t).resumes off.2)⟩
  | pend t reason =>
    obtain ⟨may, ⟨⟩⟩ := ite_none_right_eq_some.mp ran
    exact ⟨q, inv.pend may.1 reason⟩
  | unblock t reason =>
    obtain ⟨may, ⟨⟩⟩ := ite_none_right_eq_some.mp ran
    exact ⟨q, inv.unblock t ((inv.ok t).wakeAside .inl)⟩
  | signal t =>
    cases ran
    exact ⟨q, inv.linked, inv.ok, inv.content⟩
  | handled t =>
    obtain ⟨-, ⟨⟩⟩ := ite_none_right_eq_some.mp ran
    exact ⟨q, inv.linked, inv.ok, inv.content⟩
  | wakeup t =>
    obtain ⟨-, ⟨⟩⟩ := ite_none_right_eq_some.mp ran
    exact ⟨q, inv.linked, fun x => (inv.ok x).mono id (mem_append_left _) fun _ => id,
      inv.content⟩
  | signalStep i => exact inv.signalStep careful ran
  | die t => exact inv.die careful ran

/-- A thread that walks a list is not asleep. -/
theorem walker_awake (there : t ∈ q (.inr w)) : Awake (s.control w) := by
  have walking : s.walks w ≠ none := fun idle => ne_nil_of_mem there (inv.nil_of_walks idle)
  have own := inv.ok w
  cases inCall : s.call w with
  | none => simp [walks, inCall, Call.walkHead] at walking
  | close side head => exact own.closing side head inCall
  | io job stage =>
    cases stage with
    | wake head => exact own.busy job _ inCall rfl (by simp)
    | _ => simp [walks, inCall, Call.walkHead] at walking

/-- A sleeper is in a list, or a wake is on its way. -/
theorem attended (sleeps : Sleeps s t job) : Attended s t job := by
  obtain ⟨⟨stage, inCall⟩, pended, -⟩ := sleeps
  have own := inv.own inCall
  by_cases self : stage = .unblockSelf
  · subst self
    exact .inr (.inr (.inr ⟨inCall, (own.own job rfl pended).1⟩))
  · have late : stage.late = true := by
      by_contra notLate
      exact (own.busy job stage rfl (by simpa using notLate) self).up pended
    obtain ⟨ends, walkers⟩ := own.home job stage rfl (.inr late)
    rcases (own.late job stage rfl late pended).2 with ⟨key | w, there⟩ | told
    · obtain rfl := ends key there
      exact .inl ⟨by rw [inv.members_eq]; exact there, inv.content _ (ne_nil_of_mem there)⟩
    · refine .inr (.inl ⟨w, by rw [inv.members_eq]; exact there, walkers w there, ?_⟩)
      exact inv.walker_awake there
    · exact .inr (.inr (.inl told))

theorem blockReason (sleeps : Sleeps s t job) : (s.control t).blockReason = job.reason := by
  obtain ⟨⟨stage, inCall⟩, pended, -⟩ := sleeps
  have own := inv.own inCall
  by_cases self : stage = .unblockSelf
  · subst self
    exact (own.own job rfl pended).2
  · by_cases late : stage.late = true
    · exact (own.late job stage rfl late pended).1
    · exact absurd pended (own.busy job stage rfl (by simpa using late) self).up

theorem wakes (sleeps : Sleeps s t job) (wake : Wakes s t job e)
    (ran : e.exec s = some s') : (s'.control t).state ≠ .pended := by
  have reason := inv.blockReason sleeps
  have up : (wokenThread (s.control t) job.reason).state ≠ .pended := by
    intro pended
    apply wokenThread_still pended
    simp [reason]
  cases e with
  | step w =>
    obtain ⟨-, stepped⟩ := ite_none_right_eq_some.mp ran
    unfold Pipes.callStep at stepped
    rcases wake with ⟨walking, side⟩ | ⟨rfl, inCall⟩
    · unfold Job.reason at up
      cases inCall : s.call w with
      | none => simp [inCall, Call.walkHead] at walking
      | close side' head =>
        rw [inCall] at walking side stepped
        obtain rfl : head = some t := walking
        cases stepped
        simpa [Pipes.wakeFirst, Pipes.unblock, Pipes.setCall, some.inj side] using up
      | io job' stage =>
        rw [inCall] at walking side stepped
        cases stage with
        | wake head =>
          obtain rfl : head = some t := walking
          cases stepped
          simpa [Pipes.wakeFirst, Pipes.unblock, Pipes.setCall, some.inj side] using up
        | _ => simp [Call.walkHead] at walking
    · rw [inCall] at stepped
      cases stepped
      simpa [Pipes.unblock, Pipes.ret] using up
  | signalStep i =>
    obtain ⟨signaller, here, rest⟩ := bind_eq_some_iff.mp ran
    obtain rfl := some.inj (here.symm.trans wake)
    cases rest
    simpa [Pipes.unblock, reason] using up
  | _ => exact wake.elim

omit inv

end WaitInv

/-! ## Runs -/

instance : Fintype Side := ⟨{.reader, .writer}, fun side => by cases side <;> simp⟩

instance (s : Pipes m n) : DecidablePred s.nothingFor
  | (_, .reader) => inferInstanceAs (Decidable (_ ∧ _))
  | (_, .writer) => inferInstanceAs (Decidable (_ ∧ _))

instance (s : Pipes m n) (job : Job m) : Decidable (s.willWait job) := by
  unfold Pipes.willWait
  split <;> infer_instance

instance (s : Pipes m n) (t : Fin n) : Decidable (InTime s t) := by
  unfold InTime
  split <;> infer_instance

instance (s : Pipes m n) (key : ListKey m n) (t : Fin n) : Decidable (t ∈ s.members key) :=
  decidable_of_iff ((s.members key).contains t = true) List.contains_iff_mem

instance (s : Pipes m n) (e : Event m n) : Decidable (Careful s e) := by
  unfold Careful
  split
  · split <;> infer_instance
  · split <;> infer_instance
  · split <;> infer_instance
  all_goals infer_instance

instance (th : Sched.Thread) : Decidable (Awake th) := inferInstanceAs (Decidable (_ ∨ _))

instance (s : Pipes m n) (t : Fin n) (job : Job m) : Decidable (Attended s t job) :=
  inferInstanceAs (Decidable (_ ∨ _))

/-- No thread that sleeps in a pipe is forgotten, and the wake that it waits for wakes it. -/
theorem sleepers_are_attended {capacity : Nat} {control : Fin n → Sched.Thread}
    {onCpu : Fin n → Bool} {events : List (Event m n)} {s : Pipes m n}
    (awake : ∀ t, Awake (control t) ∧ (control t).blockReason = 0)
    (run : Run (Run.Guarded Careful Event.exec) (Pipes.start capacity control onCpu) events s) :
    ∀ t job, Sleeps s t job → Attended s t job ∧
      ∀ e s', Wakes s t job e → Steps s e s' → (s'.control t).state ≠ .pended := by
  obtain ⟨q, inv⟩ : ∃ q, WaitInv s q := by
    apply run.preserves _ ⟨_, .start awake⟩
    rintro s e s' ⟨q, inv⟩ ⟨careful, ran⟩
    exact inv.step careful ran
  exact fun t job sleeps =>
    ⟨inv.attended sleeps, fun e s' wake ran => inv.wakes sleeps wake ran⟩

/-- A read of one byte that sleeps in an empty pipe. -/
def sleepingRead (c : Fin m) (t : Fin n) : List (Event m n) :=
  .readPipe t c 1 :: List.replicate 6 (.step t)

/-- A write has taken the list of the readers, and the wake of the one in it is still to come. -/
theorem sleepers_are_attended_writer_walks : ∃ s : Pipes 1 2,
    (Sleeps s 0 ⟨0, 0, .read 1 []⟩ ∧ s.members (.inr 1) = [0]) ∧
      Attended s 0 ⟨0, 0, .read 1 []⟩ := by
  obtain ⟨s, run, inCall, pended, reason, walked⟩ :
    ∃ s, Run (Run.Guarded Careful Event.exec) (running 4 1 2)
      (sleepingRead 0 0 ++ [.writePipe 1 0 [7], .step 1]) s ∧
        (s.call 0 = .io ⟨0, 0, .read 1 []⟩ .woken ∧ (s.control 0).state = .pended ∧
          (s.control 0).blockReason &&& brRecvPipe ≠ 0 ∧ s.members (.inr 1) = [0]) :=
    Run.exists_guarded (by decide +kernel)
  have sleeps : Sleeps s 0 ⟨0, 0, .read 1 []⟩ := ⟨⟨_, inCall⟩, pended, reason⟩
  exact ⟨s, ⟨sleeps, walked⟩,
    (sleepers_are_attended (fun _ => ⟨.inl rfl, rfl⟩) run 0 _ sleeps).1⟩

/-- A reader that a signal took out of its wait links itself while a writer still has it in its
list: the writer loses the reader behind it. -/
def lateRelink (c : Fin m) (r other w : Fin n) : List (Event m n) :=
  sleepingRead c r ++ sleepingRead c other ++
    [.writePipe w c [7], .step w, .signal r, .wakeup r, .signalStep 0, .signalStep 0, .resume r,
      .step r, .handled r, .readPipe r c 1, .step r, .step r, .step r, .readPipe r c 1, .step r,
      .step w, .step w, .step w]

/-- A reader loses the core before it calls `Block`, and is woken in between. -/
def earlyWake (c : Fin m) (r w : Fin n) : List (Event m n) :=
  [.readPipe r c 1, .step r, .preempt r, .writePipe w c [7], .step w, .step w, .step w, .step w,
    .resume r, .step r, .step r, .step r, .step r, .step r]

theorem forgotten_of_any {id}
    (ends : (events.foldlM Event.exec (running 4 1 n)).any (fun s =>
      decide (s.call t = .io ⟨id, 0, .read 1 []⟩ .woken ∧ (s.control t).state = .pended ∧
        (s.control t).blockReason &&& brRecvPipe ≠ 0 ∧
        ¬ Attended s t ⟨id, 0, .read 1 []⟩ ∧
        (s.channels 0).buffer = bytes)) = true) :
    ∃ s, Run Steps (running 4 1 n) events s ∧ Sleeps s t ⟨id, 0, .read 1 []⟩ ∧
      ¬ Attended s t ⟨id, 0, .read 1 []⟩ ∧ (s.channels 0).buffer = bytes := by
  obtain ⟨s, run, holds⟩ := Run.exists_of_any ends
  obtain ⟨inCall, pended, reason, alone, buffer⟩ := of_decide_eq_true holds
  exact ⟨s, run, ⟨⟨_, inCall⟩, pended, reason⟩, alone, buffer⟩

/-- A reader sleeps in no list, and one sleeps beside a byte. -/
theorem sleepers_forgotten :
    (∃ s, Run Steps (Pipes.running 4 1 3) (lateRelink 0 0 1 2) s ∧
      Sleeps s 1 ⟨1, 0, .read 1 []⟩ ∧ ¬ Attended s 1 ⟨1, 0, .read 1 []⟩ ∧ (s.channels 0).buffer = []) ∧
    ∃ s, Run Steps (Pipes.running 4 1 2) (earlyWake 0 0 1) s ∧
      Sleeps s 0 ⟨0, 0, .read 1 []⟩ ∧ ¬ Attended s 0 ⟨0, 0, .read 1 []⟩ ∧ (s.channels 0).buffer = [7] :=
  ⟨forgotten_of_any (by decide +kernel), forgotten_of_any (by decide +kernel)⟩

end Mecocoa.Pipe
