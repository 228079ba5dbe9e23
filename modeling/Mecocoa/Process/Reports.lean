import Mecocoa.Process.TreeInv

/-! # Every exited child is reported once

Every process that exits while its parent is active stays behind until one wait of that
parent has reported it, and no parent is blocked while such a child is there that its wait
accepts.  Children of the init task, of the kernel and of the device manager are not kept
for a wait.
-/

namespace Mecocoa.Process

open Procs Lib ProcEvent List Option
open Function (update update_self update_of_ne update_apply)

variable {s s' : Procs n}

/-- Parents whose exited children are kept for a wait. -/
def WaitedFor (ids : SystemTasks n) (parent c : Fin n) : Prop :=
  parent ≠ ids.devsman ∧ ¬ NonwaitOwner ids parent c

instance (ids : SystemTasks n) (parent c : Fin n) : Decidable (WaitedFor ids parent c) :=
  inferInstanceAs (Decidable (_ ∧ _))

/-- The waits of `p` that have reported `c`, or are about to return that report. -/
def Procs.reports (s : Procs n) (p c : Fin n) (status : Int) : Nat :=
  s.told.count (p, c, status) + (s.mail p).count (some (c, status))

inductive Phase (n : Nat) where
  | idle
  | requested (target : Target n)
  | blocked (target : Target n)
  | answered (reply : Reply n)

def Phase.call : Phase n → Bool × Option (Target n) × Option (Target n) × List (Reply n)
  | .idle => (false, none, none, [])
  | .requested target => (true, some target, none, [])
  | .blocked target => (true, none, some target, [])
  | .answered reply => (true, none, none, [reply])

/-- The bookkeeping of exits and waits; `busy` is the process the service is just ending. -/
structure ProcInv (ids : SystemTasks n) (busy : Fin n → Prop) (s : Procs n) : Prop where
  tree : Tree ids s
  initActive : s.state ids.init = .active
  kernelActive : s.state ids.kernel = .active
  standing : ∀ c ∈ s.chain, s.state c = .active ∨ s.state c = .hanging ∨ busy c ∧
    s.state c = .expiring
  absent : ∀ c, c ∉ s.chain → s.state c = .invalid
  known : ∀ c ∈ s.chain, s.born c ∧ s.born (s.parentId c)
  parentBorn : ∀ p c status, s.ended c = some (p, status) → s.born p ∧ s.born c
  alive : ∀ c, s.state c = .active → s.ended c = none
  zombie : ∀ c, s.state c = .hanging →
    (s.state (s.parentId c) = .active ∨ busy (s.parentId c)) ∧
    s.ended c = some (s.parentId c, s.exitStatus c) ∧ c ≠ ids.kernel
  phase : ∀ p, ∃ phase : Phase n, s.call p = phase.call
  truthful : ∀ p c status, 0 < s.reports p c status → s.ended c = some (p, status) ∧
    (s.state c = .invalid ∨ busy c)
  once : ∀ p c status, s.reports p c status ≤ 1
  kept : ∀ p c status, s.ended c = some (p, status) → s.state p = .active →
    WaitedFor ids p c →
    s.state c = .hanging ∨ s.reports p c status = 1 ∨ busy c
  heard : ∀ p target, s.waiting p = some target → ∀ c, s.state c = .hanging →
    s.parentId c = p → ¬ Accepts target c

namespace ProcInv

theorem inChain (inv : ProcInv ids busy s) (standing : s.state c ≠ .invalid) : c ∈ s.chain := by
  by_contra outside
  exact standing (inv.absent c outside)

/-- Who counts as being ended changes; whoever no longer does is settled. -/
theorem settled (inv : ProcInv ids busy s)
    (done : ∀ p, busy p → busy' p ∨ s.state p ≠ .expiring ∧
      (∀ c, s.state c = .hanging → s.parentId c ≠ p) ∧
      (∀ q status, 0 < s.reports q p status → s.state p = .invalid) ∧
      ∀ q status, s.ended p = some (q, status) → s.state q = .active → WaitedFor ids q p →
      s.reports q p status = 1) :
    ProcInv ids busy' s :=
  { inv with
    standing := by
      intro c member
      have := inv.standing c member
      grind
    zombie := by
      intro c hanging
      have := inv.zombie c hanging
      grind
    truthful := by
      intro q c status reported
      have := inv.truthful q c status reported
      grind
    kept := by
      intro q c status ended active waited
      have := inv.kept q c status ended active waited
      grind }

end ProcInv

theorem Tidies.reports_le (tidies : Tidies ids marked s s') (p c : Fin n) (status : Int) :
    s'.reports p c status ≤ s.reports p c status := by
  have mail : s'.mail p = s.mail p ∨ s'.mail p = [] := by
    have := tidies.calls p
    simp only [Procs.call, Prod.mk.injEq] at this
    grind
  simp only [Procs.reports, tidies.told]
  rcases mail with same | cleared
  · rw [same]
  · rw [cleared]
    simp

theorem Tidies.call_eq (tidies : Tidies ids marked s s') (member : p ∈ s'.chain) :
    s'.call p = s.call p := by
  have := tidies.calls p
  grind

theorem Tidies.reports_eq (tidies : Tidies ids marked s s') (member : p ∈ s'.chain)
    (c : Fin n) (status : Int) : s'.reports p c status = s.reports p c status := by
  have mail := congrArg (·.2.2.2) (tidies.call_eq member)
  simp only [Procs.call] at mail
  simp only [Procs.reports, tidies.told, mail]

namespace ProcInv

/-- Taking away what is dead, and what the service is ending. -/
theorem tidies (inv : ProcInv ids busy s) (tree : Tree ids s') (tidies : Tidies ids marked s s')
    (marks : ∀ c, marked c → busy c ∧ s.state c ≠ .active) : ProcInv ids busy s' := by
  have states := tidies.state
  have active : ∀ c, s'.state c = .active ↔ s.state c = .active := by
    intro c
    simp only [Dead] at *
    grind
  have absent : ∀ c, c ∉ s'.chain → s'.state c = .invalid := by
    intro c outside
    have := inv.absent c
    have := tidies.chain c
    grind
  constructor
  · exact tree
  · exact (active _).mpr inv.initActive
  · exact (active _).mpr inv.kernelActive
  · intro c member
    have here := (tidies.chain c).mp member
    rw [here.2]
    exact inv.standing c here.1
  · exact absent
  · intro c member
    have here := (tidies.chain c).mp member
    have init := (inv.known _ inv.tree.initIn).1
    have known := inv.known c here.1
    have parent := tidies.parentId c
    rw [tidies.born]
    grind
  · intro p c status ended
    rw [tidies.ended] at ended
    rw [tidies.born]
    exact inv.parentBorn p c status ended
  · intro c alive
    rw [tidies.ended]
    exact inv.alive c ((active c).mp alive)
  · intro c hanging
    have parent := tidies.parentId c
    have was : s.state c = .hanging := by
      grind
    have zombie := inv.zombie c was
    rw [tidies.ended, tidies.exitStatus]
    grind
  · intro p
    have calls := tidies.calls p
    obtain ⟨phase, here⟩ := inv.phase p
    rcases calls with same | cleared
    · exact ⟨phase, same.trans here⟩
    · exact ⟨.idle, cleared.2⟩
  · intro p c status reported
    obtain ⟨ended, gone⟩ :=
      inv.truthful p c status (reported.trans_le (tidies.reports_le p c status))
    have := states c
    simp only [Dead] at this
    rw [tidies.ended]
    grind
  · intro p c status
    exact (tidies.reports_le p c status).trans (inv.once p c status)
  · intro p c status ended parentActive waited
    rw [tidies.ended] at ended
    rw [active p] at parentActive
    have member : p ∈ s'.chain := by
      by_contra outside
      grind
    rw [tidies.reports_eq member]
    have kept := inv.kept p c status ended parentActive waited
    have here := states c
    have zombie := inv.zombie c
    simp only [Dead] at here
    grind
  · intro p target waiting c hanging parent
    have := tidies.parentId c
    have was : s.state c = .hanging := by
      grind
    have call : s'.waiting p = s.waiting p := by
      have := tidies.calls p
      simp only [Procs.call, Prod.mk.injEq] at this
      grind
    rw [call] at waiting
    exact inv.heard p target waiting c was (by grind)

variable (inv : ProcInv ids busy s)

include inv

theorem unreported (standing : s.state c ≠ .invalid) (free : ¬ busy c) (q : Fin n)
    (status : Int) : s.reports q c status = 0 := by
  by_contra reported
  have := inv.truthful q c status (Nat.pos_of_ne_zero reported)
  grind

theorem phases (phase : Phase n) (own : s'.call p = phase.call)
    (others : ∀ q, q ≠ p → s'.call q = s.call q) :
    ∀ q, ∃ phase : Phase n, s'.call q = phase.call := by
  intro q
  by_cases same : q = p
  · exact ⟨phase, same ▸ own⟩
  · rw [others q same]
    exact inv.phase q

theorem waiting_call (waiting : s.waiting p = some target) :
    s.inCall p = true ∧ s.request p = none ∧ s.mail p = [] := by
  obtain ⟨phase, call⟩ := inv.phase p
  cases phase <;> simp_all [Procs.call, Phase.call]

theorem request_call (request : s.request p = some target) :
    s.inCall p = true ∧ s.waiting p = none ∧ s.mail p = [] := by
  obtain ⟨phase, call⟩ := inv.phase p
  cases phase <;> simp_all [Procs.call, Phase.call]

theorem mail_call (mail : s.mail p = reply :: rest) :
    s.inCall p = true ∧ s.request p = none ∧ s.waiting p = none ∧ rest = [] := by
  obtain ⟨phase, call⟩ := inv.phase p
  cases phase <;> simp_all [Procs.call, Phase.call]

theorem idle_call (idle : s.inCall p = false) : s.waiting p = none ∧ s.mail p = [] := by
  obtain ⟨phase, call⟩ := inv.phase p
  cases phase <;> simp_all [Procs.call, Phase.call]

omit inv

theorem expiring (inv : ProcInv ids (fun _ => False) s) (active : s.state p = .active)
    (notInit : p ≠ ids.init) (notKernel : p ≠ ids.kernel) (status : Int) :
    ProcInv ids (· = p) (s.expiring p status) := by
  have member := inv.inChain (c := p) (by simp [active])
  constructor
  · refine inv.tree.congr rfl rfl rfl ?_
    intro c
    simp only [Procs.expiring, update_apply]
    grind
  · simp [Procs.expiring, notInit.symm, inv.initActive]
  · simp [Procs.expiring, notKernel.symm, inv.kernelActive]
  · intro c here
    have := inv.standing c here
    simp only [Procs.expiring, update_apply]
    grind
  · intro c outside
    have := inv.absent c outside
    simp only [Procs.expiring, update_apply] at *
    grind
  · exact inv.known
  · intro q c status' ended
    have := inv.parentBorn q c status'
    have := inv.known p member
    simp only [Procs.expiring, update_apply] at *
    grind
  · intro c alive
    have := inv.alive c
    simp only [Procs.expiring, update_apply] at *
    grind
  · intro c hanging
    have := inv.zombie c
    simp only [Procs.expiring, update_apply] at *
    grind
  · exact inv.phase
  · intro q c status' reported
    have := inv.truthful q c status' reported
    simp only [Procs.expiring, update_apply] at *
    grind
  · exact inv.once
  · intro q c status' ended parentActive waited
    have := inv.kept q c status'
    have same : (s.expiring p status).reports q c status' = s.reports q c status' := rfl
    simp only [Procs.expiring, update_apply] at *
    grind
  · intro q target waiting c hanging parent
    have := inv.heard q target waiting c
    simp only [Procs.expiring, update_apply] at *
    grind

theorem hang (inv : ProcInv ids (· = p) s) (expiring : s.state p = .expiring)
    (parentActive : s.state (s.parentId p) = .active)
    (ended : s.ended p = some (s.parentId p, s.exitStatus p)) (notKernel : p ≠ ids.kernel)
    (childless : ∀ c, s.state c = .hanging → s.parentId c ≠ p)
    (untold : ∀ q status, s.reports q p status = 0)
    (unheard : ∀ target, s.waiting (s.parentId p) = some target → ¬ Accepts target p) :
    ProcInv ids (fun _ => False) (s.setState p .hanging) := by
  constructor
  · refine inv.tree.congr rfl rfl rfl ?_
    intro c
    simp only [setState, update_apply]
    grind
  · have := inv.initActive
    simp only [setState, update_apply]
    grind
  · simp [setState, notKernel.symm, inv.kernelActive]
  · intro c member
    have := inv.standing c member
    simp only [setState, update_apply]
    grind
  · intro c outside
    have := inv.absent c outside
    simp only [setState, update_apply]
    grind
  · exact inv.known
  · exact inv.parentBorn
  · intro c alive
    have := inv.alive c
    simp only [setState, update_apply] at *
    grind
  · intro c hanging
    have := inv.zombie c
    simp only [setState, update_apply] at *
    grind
  · exact inv.phase
  · intro q c status reported
    have := inv.truthful q c status reported
    have := untold q status
    simp only [setState, update_apply, Procs.reports] at *
    grind
  · exact inv.once
  · intro q c status endedC active waited
    have := inv.kept q c status endedC
    simp only [setState, update_apply, Procs.reports] at *
    grind
  · intro q target waiting c hanging parent
    have := inv.heard q target waiting c
    simp only [setState, update_apply] at *
    grind

end ProcInv

/-- Hand an answer to the main thread of `p` and end its wait. -/
def Procs.answer (p : Fin n) (reply : Reply n) (s : Procs n) : Procs n :=
  { s with
    request := update s.request p none
    waiting := update s.waiting p none
    mail := update s.mail p (s.mail p ++ [reply]) }

theorem post_answers (idle : s.waiting p = none) :
    { post p reply true s with request := update (post p reply true s).request p none } =
      s.answer p reply := by
  simp [Procs.answer, post, ← idle]

theorem answer_reports (s : Procs n) (p : Fin n) (reply : Reply n) (q c : Fin n) (status : Int) :
    (s.answer p reply).reports q c status =
      s.reports q c status + if q = p ∧ reply = some (c, status) then 1 else 0 := by
  simp only [Procs.reports, Procs.answer, update_apply]
  by_cases same : q = p
  · subst same
    simp [count_append, count_singleton, add_assoc]
  · simp [same]

namespace ProcInv

theorem answer (inv : ProcInv ids busy s) (inCall : s.inCall p = true) (empty : s.mail p = [])
    (owed : ∀ c status, reply = some (c, status) → s.ended c = some (p, status) ∧ busy c ∧
      s.reports p c status = 0) :
    ProcInv ids busy (s.answer p reply) := by
  have counts := answer_reports s p reply
  refine { inv with
    tree := inv.tree.congr rfl rfl rfl fun _ => Iff.rfl
    phase := inv.phases (p := p) (.answered reply) ?_ ?_
    truthful := ?_, once := ?_, kept := ?_, heard := ?_ }
  · simp [Procs.call, Procs.answer, Phase.call, inCall, empty]
  · intro q other
    simp [Procs.call, Procs.answer, other]
  · intro q c status reported
    have := inv.truthful q c status
    rw [counts] at reported
    simp only [Procs.answer]
    grind
  · intro q c status
    have := inv.once q c status
    rw [counts]
    grind
  · intro q c status ended active waited
    have := inv.kept q c status ended active waited
    rw [counts]
    simp only [Procs.answer] at *
    grind
  · intro q target waiting
    have := inv.heard q target
    simp only [Procs.answer, update_apply] at *
    grind

end ProcInv

/-- The process that ends after the loop over its children. -/
structure Settling (ids : SystemTasks n) (p parent : Fin n) (status : Int) (s : Procs n) :
    Prop where
  inv : ProcInv ids (· = p) s
  expiring : s.state p = .expiring
  notInit : p ≠ ids.init
  notKernel : p ≠ ids.kernel
  ended : s.ended p = some (parent, status)
  exitStatus : s.exitStatus p = status
  parentId : s.state parent = .active → s.parentId p = parent
  childless : ∀ c, s.state c = .hanging → s.parentId c ≠ p
  untold : ∀ q status, s.reports q p status = 0

namespace ProcInv

theorem shallow (inv : ProcInv ids (fun _ => False) s) (hanging : s.state c = .hanging)
    (below : s.state d = .hanging) : s.parentId d ≠ c := by
  have := inv.zombie d below
  grind

theorem reaps (inv : ProcInv ids (fun _ => False) s) (active : s.state p = .active)
    (notInit : p ≠ ids.init) (notKernel : p ≠ ids.kernel) (status : Int) :
    ∃ s', reapChildren ids (rounds n) p (s.expiring p status) = some s' ∧
      Settling ids p (s.parentId p) status s' := by
  have start := inv.expiring active notInit notKernel status
  have member := inv.inChain (c := p) (by simp [active])
  have marked : (s.expiring p status).state p = .expiring := by simp [Procs.expiring]
  have apart : Shallow (s.expiring p status) := by
    intro c d hanging below
    have := inv.shallow (c := c) (d := d)
    simp only [Procs.expiring, update_apply] at *
    grind
  have short := start.tree.length_le p
  obtain ⟨s', looped, tree, empty, tidies⟩ :=
    reapChildren_returns (rounds n) p (s.expiring p status) start.tree member
    notInit start.initActive (by simp [marked]) apart (by simp only [rounds]; omega)
  have same := tidies.same_state (p := p) (by simp [marked])
  have inv' := start.tidies tree tidies (fun _ none => none.elim)
  have noReport := fun q status => inv.unreported (c := p) (by simp [active]) id q status
  refine ⟨s', looped, ?_⟩
  constructor
  · exact inv'
  · rw [same, marked]
  · exact notInit
  · exact notKernel
  · rw [tidies.ended]
    simp [Procs.expiring]
  · rw [tidies.exitStatus]
    simp [Procs.expiring]
  · intro parentActive
    rw [tidies.active_iff] at parentActive
    have := tidies.parentId p
    have parent : (s.expiring p status).parentId p = s.parentId p := rfl
    grind
  · intro c hanging parent
    have zombie := inv'.zombie c hanging
    have listed := (tree.listed p ((tidies.chain p).mpr ⟨member, same⟩) c).mpr
      ⟨inv'.inChain (by simp [hanging]), by simp [hanging], zombie.2.2, parent⟩
    rw [empty] at listed
    cases listed
  · intro q status'
    have := tidies.reports_le q p status'
    have unchanged : (s.expiring p status).reports q p status' = s.reports q p status' := rfl
    have := noReport q status'
    omega

/-- The end of a process the service is ending. -/
theorem cleaned (inv : ProcInv ids (· = p) s) (notInit : p ≠ ids.init)
    (standing : s.state p ≠ .invalid) (ended : s.state p ≠ .active)
    (childless : ∀ c, s.state c = .hanging → s.parentId c ≠ p) :
    ∃ s', s.cleanup ids p = some s' ∧ ProcInv ids (· = p) s' ∧ s'.state p = .invalid ∧
      (∀ c, s'.state c = .hanging → s'.parentId c ≠ p) ∧ Tidies ids (· = p) s s' := by
  obtain ⟨s', ran, tree, tidies, gone⟩ :=
    exitCleanup_live inv.tree (inv.inChain standing) notInit
    standing ended childless (show n < rounds n by simp only [rounds]; omega)
  refine ⟨s', ran, inv.tidies tree tidies ?_, gone, ?_, tidies⟩
  · rintro c rfl
    exact ⟨rfl, ended⟩
  · intro c hanging
    have := tidies.state c
    have := tidies.parentId c
    grind

end ProcInv

namespace Settling

open ProcInv

variable (settling : Settling ids p parent status s)

include settling

theorem discard (unwaited : s.state parent = .active → ¬ WaitedFor ids parent p) :
    ∃ s', s.cleanup ids p = some s' ∧ ProcInv ids (fun _ => False) s' := by
  obtain ⟨s', ran, inv, gone, childless, tidies⟩ :=
    settling.inv.cleaned settling.notInit (by simp [settling.expiring])
    (by simp [settling.expiring]) settling.childless
  refine ⟨s', ran, ?_⟩
  apply inv.settled
  rintro p rfl
  refine .inr ⟨by simp [gone], childless, fun _ _ _ => gone, ?_⟩
  · intro q status' ended active waited
    rw [tidies.ended, settling.ended] at ended
    cases ended
    have := tidies.state parent
    grind

theorem deliver (waiting : s.waiting parent = some target) :
    ∃ s', (s.deliverWaitResult parent p status).cleanup ids p = some s' ∧
      ProcInv ids (fun _ => False) s' := by
  obtain ⟨inCall, request, empty⟩ := settling.inv.waiting_call waiting
  have answered : s.deliverWaitResult parent p status = s.answer parent (some (p, status)) := by
    simp [deliverWaitResult, Procs.answer, ← request]
  rw [answered]
  have told : ProcInv ids (· = p) (s.answer parent (some (p, status))) := by
    apply settling.inv.answer inCall empty
    rintro c status' ⟨⟩
    exact ⟨settling.ended, rfl, settling.untold _ _⟩
  obtain ⟨s', ran, inv, gone, childless, tidies⟩ := told.cleaned settling.notInit
    (by simp [Procs.answer, settling.expiring]) (by simp [Procs.answer, settling.expiring])
    settling.childless
  refine ⟨s', ran, ?_⟩
  apply inv.settled
  rintro p rfl
  refine .inr ⟨by simp [gone], childless, fun _ _ _ => gone, ?_⟩
  · intro q status' ended active _
    have owner : s.ended p = some (q, status') := by rw [← ended, tidies.ended]; rfl
    rw [settling.ended] at owner
    cases owner
    rw [tidies.reports_eq (inv.inChain (by simp [active])), answer_reports, settling.untold]
    simp

theorem settles :
    ∃ s', settle ids p parent status true s = some s' ∧ ProcInv ids (fun _ => False) s' := by
  have inChain : s.state parent = .active → parent ∈ s.chain :=
    fun active => settling.inv.inChain (by simp [active])
  unfold settle
  split
  · rename_i driver
    apply settling.discard
    intro _ waited
    exact waited.1 driver.2
  split
  · rename_i _ heard
    obtain ⟨target, waiting, _⟩ := (Option.any_eq_true ..).mp heard.2
    exact settling.deliver waiting
  split
  · rename_i owner
    apply settling.discard
    intro _ waited
    exact waited.2 owner
  split
  · rename_i inactive
    apply settling.discard
    intro active
    exact absurd ⟨inChain active, active⟩ inactive
  · rename_i _ unheard _ active
    simp only [not_not] at active
    refine ⟨_, rfl, ?_⟩
    have parentId := settling.parentId active.2
    apply settling.inv.hang settling.expiring
    · rw [parentId]
      exact active.2
    · rw [parentId, settling.exitStatus]
      exact settling.ended
    · exact settling.notKernel
    · exact settling.childless
    · exact settling.untold
    · intro target waiting accepts
      rw [parentId] at waiting
      exact unheard ⟨active, by simp [waiting, accepts]⟩

omit settling

end Settling

namespace ProcInv

theorem firstHanging_some (first : firstHanging ids p target s = some c) :
    c ∈ s.chain ∧ Counts ids p target s c ∧ s.state c = .hanging := by
  have found := find?_some first
  simp only [decide_eq_true_eq] at found
  exact ⟨mem_of_find?_eq_some first, found⟩

variable (inv : ProcInv ids (fun _ => False) s)

include inv

/-- The service ends every exit it takes. -/
theorem exit (notInit : p ≠ ids.init) (notKernel : p ≠ ids.kernel) (status : Int) :
    ∃ s', s.exit ids p status true = some s' ∧ ProcInv ids (fun _ => False) s' := by
  unfold Procs.exit
  split
  · rename_i live
    obtain ⟨mid, looped, settling⟩ := inv.reaps live.2 notInit notKernel status
    rw [looped]
    exact settling.settles
  · exact ⟨s, rfl, inv⟩

/-- A wait that finds an exited child reports it. -/
theorem reports_child (request : s.request p = some target)
    (first : firstHanging ids p target s = some c) :
    ∃ s₁, s.cleanup ids c = some s₁ ∧ s₁.call p = s.call p ∧
      s₁.told = s.told ∧
      ProcInv ids (fun _ => False) (s₁.answer p (some (c, s.exitStatus c))) := by
  obtain ⟨_, counts, hanging⟩ := firstHanging_some first
  obtain ⟨parent, ended, notKernel⟩ := inv.zombie c hanging
  rw [counts.2.1, or_false] at parent
  rw [counts.2.1] at ended
  have notInit : c ≠ ids.init := by
    rintro rfl
    rw [inv.initActive] at hanging
    cases hanging
  have ending : ProcInv ids (· = c) s := inv.settled nofun
  obtain ⟨s₁, ran, inv₁, gone, childless₁, tidies⟩ :=
    ending.cleaned notInit (by simp [hanging]) (by simp [hanging])
    fun _ below => inv.shallow hanging below
  have parentIn : p ∈ s₁.chain := by
    apply inv₁.inChain
    have := tidies.state p
    simp only [Dead] at this
    grind
  have untold : s₁.reports p c (s.exitStatus c) = 0 := by
    rw [tidies.reports_eq parentIn]
    exact inv.unreported (by simp [hanging]) id p _
  have call := tidies.call_eq parentIn
  obtain ⟨inCall, _, empty⟩ := inv.request_call request
  refine ⟨s₁, ran, call, tidies.told, ?_⟩
  simp only [Procs.call, Prod.mk.injEq] at call
  have told : ProcInv ids (· = c) (s₁.answer p (some (c, s.exitStatus c))) := by
    apply inv₁.answer (by rw [call.1, inCall]) (by rw [call.2.2.2, empty])
    rintro d status ⟨⟩
    exact ⟨by rw [tidies.ended, ended], rfl, untold⟩
  apply told.settled
  rintro c rfl
  refine .inr ⟨by simp [Procs.answer, gone], childless₁, fun _ _ _ => gone, ?_⟩
  · intro q status owner active _
    have same : s.ended c = some (q, status) := by rw [← owner, ← tidies.ended]; rfl
    rw [ended] at same
    cases same
    rw [answer_reports, untold]
    simp

theorem blocks (request : s.request p = some target)
    (noHanging : firstHanging ids p target s = none) : ProcInv ids (fun _ => False)
      { s with
        waiting := update s.waiting p (some target)
        request := update s.request p none } := by
  obtain ⟨inCall, _, empty⟩ := inv.request_call request
  refine { inv with
    tree := inv.tree.congr rfl rfl rfl fun _ => Iff.rfl
    phase := inv.phases (p := p) (.blocked target) ?_ ?_
    heard := ?_ }
  · simp [Procs.call, Phase.call, inCall, empty]
  · intro q other
    simp [Procs.call, other]
  · intro q target' waiting c hanging parent accepts
    by_cases same : q = p
    · subst same
      simp only [update_self, some.injEq] at waiting
      subst waiting
      have none :=
        find?_eq_none.mp noHanging c
          (inv.inChain (by simp [show s.state c = .hanging from hanging]))
      simp only [decide_eq_true_eq, not_and] at none
      exact none ⟨(inv.zombie c hanging).2.2, parent, accepts⟩ hanging
    · simp only [update_of_ne same] at waiting
      exact inv.heard q target' waiting c hanging parent accepts

theorem serveWait (ran : (serveWait p true).exec ids s = some s') :
    ProcInv ids (fun _ => False) s' := by
  simp only [exec] at ran
  split at ran
  · rename_i target request
    obtain ⟨_, served, rfl⟩ := map_eq_some_iff.mp ran
    obtain ⟨inCall, waiting, empty⟩ := inv.request_call request
    unfold wait at served
    split at served
    · rename_i c first
      obtain ⟨s₁, cleaned, call, _, told⟩ := inv.reports_child request first
      rw [cleaned] at served
      cases served
      simp only [Procs.call, Prod.mk.injEq] at call
      rw [post_answers (call.2.2.1.trans waiting)]
      exact told
    · rename_i noHanging
      split at served
      · cases served
        exact inv.blocks request noHanging
      · cases served
        rw [post_answers waiting]
        exact inv.answer inCall empty (by rintro _ _ ⟨⟩)
  · cases ran

theorem callWait (idle : s.inCall p = false) (target : Target n) : ProcInv ids (fun _ => False)
      { s with
        inCall := update s.inCall p true
        request := update s.request p (some target) } := by
  obtain ⟨waiting, empty⟩ := inv.idle_call idle
  refine { inv with
    tree := inv.tree.congr rfl rfl rfl fun _ => Iff.rfl
    phase := inv.phases (p := p) (.requested target) ?_ ?_ }
  · simp [Procs.call, Phase.call, waiting, empty]
  · intro q other
    simp [Procs.call, other]

theorem takeReply
    (mail : s.mail p = reply :: rest) : ProcInv ids (fun _ => False)
      { s with
        inCall := update s.inCall p false
        mail := update s.mail p rest
        told := s.told ++ (reply.map (fun r => (p, r.1, r.2))).toList } := by
  obtain ⟨inCall, request, waiting, rfl⟩ := inv.mail_call mail
  have reports : ∀ q c status, Procs.reports { s with
        inCall := update s.inCall p false
        mail := update s.mail p []
        told := s.told ++ (reply.map (fun r => (p, r.1, r.2))).toList } q c status =
        s.reports q c status := by
    intro q c status
    simp only [Procs.reports, update_apply, count_append]
    by_cases same : q = p
    · subst same
      cases reply with
      | none => simp [mail]
      | some r =>
        obtain ⟨d, status'⟩ := r
        simp [mail, count_singleton]
    · cases reply with
      | none => simp [same]
      | some r => simp [same, Ne.symm same]
  refine { inv with
    tree := inv.tree.congr rfl rfl rfl fun _ => Iff.rfl
    phase := inv.phases (p := p) .idle ?_ ?_
    truthful := ?_, once := ?_, kept := ?_ }
  · simp [Procs.call, Phase.call, request, waiting]
  · intro q other
    simp [Procs.call, other]
  · intro q c status reported
    rw [reports] at reported
    exact inv.truthful q c status reported
  · intro q c status
    rw [reports]
    exact inv.once q c status
  · intro q c status
    rw [reports]
    exact inv.kept q c status

theorem append (born : s.born parent = true)
    (fresh : s.born c = false) : ProcInv ids (fun _ => False) (s.append parent c) := by
  have outside : c ∉ s.chain := by
    intro member
    have := (inv.known c member).1
    simp [fresh] at this
  have gone := inv.absent c outside
  have apart : ∀ d ∈ s.chain, s.parentId d ≠ c := by
    rintro d member rfl
    have := (inv.known d member).2
    simp [fresh] at this
  have notEnded : ∀ q status, s.ended c ≠ some (q, status) := by
    intro q status ended
    have := (inv.parentBorn q c status ended).2
    simp [fresh] at this
  have notOwner : ∀ d status, s.ended d ≠ some (c, status) := by
    intro d status ended
    have := (inv.parentBorn c d status ended).1
    simp [fresh] at this
  have notKernel : c ≠ ids.kernel := by
    rintro rfl
    rw [inv.kernelActive] at gone
    cases gone
  have notParent : parent ≠ c := by
    rintro rfl
    rw [born] at fresh
    cases fresh
  have reports : ∀ q d status, (s.append parent c).reports q d status = s.reports q d status :=
    fun _ _ _ => rfl
  constructor
  · exact inv.tree.append outside notParent notKernel apart
  · have := inv.initActive
    simp only [Procs.append, update_apply]
    grind
  · have := inv.kernelActive
    simp only [Procs.append, update_apply]
    grind
  · intro d member
    have := inv.standing d
    simp only [Procs.append, update_apply, mem_append, mem_singleton] at *
    grind
  · intro d absent
    have := inv.absent d
    simp only [Procs.append, update_apply, mem_append, mem_singleton] at *
    grind
  · intro d member
    have := inv.known d
    simp only [Procs.append, update_apply, mem_append, mem_singleton] at *
    grind
  · intro q d status ended
    have := inv.parentBorn q d status ended
    simp only [Procs.append, update_apply]
    grind
  · intro d alive
    have := inv.alive d
    have ended : s.ended c = none := by
      cases ended : s.ended c with
      | none => rfl
      | some r => exact absurd ended (notEnded r.1 r.2)
    simp only [Procs.append, update_apply] at *
    grind
  · intro d hanging
    have := inv.zombie d
    simp only [Procs.append, update_apply] at *
    grind
  · exact inv.phase
  · intro q d status reported
    have := inv.truthful q d status reported
    simp only [Procs.append, update_apply]
    grind
  · exact inv.once
  · intro q d status ended active waited
    have := inv.kept q d status ended
    rw [reports]
    simp only [Procs.append, update_apply] at *
    grind
  · intro q target waiting d hanging
    have := inv.heard q target waiting d
    simp only [Procs.append, update_apply] at *
    grind

end ProcInv

/-- Waits come from main threads, their answers can be handed over, and the init task stays. -/
def Careful (ids : SystemTasks n) (_ : Procs n) : ProcEvent n → Prop
  | .serveWait _ sent => sent = true
  | .serveAside .. => False
  | .exit p _ delivered => p ≠ ids.init ∧ delivered = true
  | _ => True

instance (ids : SystemTasks n) (s : Procs n) (e : ProcEvent n) : Decidable (Careful ids s e) := by
  cases e <;> simp only [Careful] <;> infer_instance

theorem ProcInv.step (inv : ProcInv ids (fun _ => False) s) (careful : Careful ids s e)
    (ran : e.exec ids s = some s') : ProcInv ids (fun _ => False) s' := by
  cases e with
  | append parent c =>
    obtain ⟨possible, ⟨⟩⟩ := ite_none_right_eq_some.mp ran
    exact inv.append possible.1 (by simpa using possible.2)
  | callWait p target =>
    obtain ⟨possible, ⟨⟩⟩ := ite_none_right_eq_some.mp ran
    exact inv.callWait possible.2.1 target
  | serveWait p sent =>
    cases careful
    exact inv.serveWait ran
  | serveAside p target sent => exact careful.elim
  | exit p status delivered =>
    obtain ⟨notInit, rfl⟩ := careful
    simp only [exec] at ran
    split at ran
    · cases ran
      exact inv
    · rename_i notKernel
      obtain ⟨_, ends, inv'⟩ := inv.exit notInit notKernel status
      rw [ends] at ran
      cases ran
      exact inv'
  | takeReply p =>
    simp only [exec] at ran
    split at ran
    · rename_i reply rest mail
      obtain ⟨_, ⟨⟩⟩ := ite_none_right_eq_some.mp ran
      exact inv.takeReply mail
    · cases ran

/-- The processes the system starts with: all live, none waiting, none exited. -/
structure Boot (ids : SystemTasks n) (s : Procs n) : Prop where
  tree : Tree ids s
  kernelIn : ids.kernel ∈ s.chain
  live : ∀ c, s.state c = if c ∈ s.chain then .active else .invalid
  born : ∀ c, s.born c = true ↔ c ∈ s.chain
  parents : ∀ c ∈ s.chain, s.parentId c ∈ s.chain
  quiet : ∀ p, s.call p = (false, none, none, [])
  untold : s.told = []
  unended : ∀ c, s.ended c = none

theorem Boot.inv (boot : Boot ids s) : ProcInv ids (fun _ => False) s := by
  have quiet := boot.quiet
  simp only [Procs.call, Prod.mk.injEq] at quiet
  have unreported : ∀ p c status, s.reports p c status = 0 := by
    intro p c status
    simp [Procs.reports, boot.untold, (quiet p).2.2.2]
  have alive : ∀ c, s.state c ≠ .hanging := by
    intro c
    rw [boot.live]
    split <;> simp
  constructor
  · exact boot.tree
  · rw [boot.live, if_pos boot.tree.initIn]
  · rw [boot.live, if_pos boot.kernelIn]
  · intro c member
    rw [boot.live, if_pos member]
    exact .inl rfl
  · intro c outside
    rw [boot.live, if_neg outside]
  · intro c member
    exact ⟨(boot.born c).mpr member, (boot.born _).mpr (boot.parents c member)⟩
  · intro p c status ended
    rw [boot.unended] at ended
    cases ended
  · intro c _
    exact boot.unended c
  · intro c hanging
    exact absurd hanging (alive c)
  · intro p
    exact ⟨.idle, boot.quiet p⟩
  · intro p c status reported
    rw [unreported] at reported
    omega
  · intro p c status
    rw [unreported]
    omega
  · intro p c status ended
    rw [boot.unended] at ended
    cases ended
  · intro p target waiting c hanging
    exact absurd hanging (alive c)

namespace ProcInv

theorem takeReply_returns (ids : SystemTasks n) (s : Procs n) (p c : Fin n) (status : Int)
    (inCall : s.inCall p = true) (waiting : s.waiting p = none)
    (mail : s.mail p = [some (c, status)]) :
    ∃ returned, (ProcEvent.takeReply p).exec ids s = some returned ∧
      returned.told = s.told ++ [(p, c, status)] := by
  simp [exec, mail, inCall, waiting]

variable (inv : ProcInv ids (fun _ => False) s)

include inv

/-- A wait sent while an exited child is there that it accepts returns such a child. -/
theorem wait_answered (request : s.request p = some target)
    (hanging : s.state c = .hanging) (parent : s.parentId c = p) (accepts : Accepts target c) :
    ∃ served returned d, (ProcEvent.serveWait p true).exec ids s = some served ∧
      (ProcEvent.takeReply p).exec ids served = some returned ∧
      s.state d = .hanging ∧ s.parentId d = p ∧ Accepts target d ∧
      returned.told = s.told ++ [(p, d, s.exitStatus d)] := by
  cases first : firstHanging ids p target s with
  | none =>
    have none := find?_eq_none.mp first c (inv.inChain (by simp [hanging]))
    simp only [decide_eq_true_eq, not_and] at none
    exact absurd hanging (none ⟨(inv.zombie c hanging).2.2, parent, accepts⟩)
  | some d =>
    obtain ⟨member, counts, exited⟩ := firstHanging_some first
    obtain ⟨s₁, cleaned, call, told, _⟩ := inv.reports_child request first
    obtain ⟨inCall, waiting, empty⟩ := inv.request_call request
    simp only [Procs.call, Prod.mk.injEq] at call
    have served :
        (ProcEvent.serveWait p true).exec ids s =
          some (s₁.answer p (some (d, s.exitStatus d))) := by
      simp [ProcEvent.exec, request, wait, first, cleaned,
        ← post_answers (call.2.2.1.trans waiting)]
    obtain ⟨returned, taken, tells⟩ :=
      takeReply_returns ids (s₁.answer p (some (d, s.exitStatus d))) p d
      (s.exitStatus d) (by simp [Procs.answer, call, inCall]) (by simp [Procs.answer])
      (by simp [Procs.answer, call, empty])
    refine ⟨_, returned, d, served, taken, exited, counts.2.1, counts.2.2, ?_⟩
    rw [tells, ← told]
    rfl

end ProcInv

/-- In every state reached, the child lists are those of the parent numbers; a process that
exited under an active parent that waits for it is there unreported, or has been reported
by one wait, with its own number and status; a parent blocked in a wait has no exited child
the wait accepts, and a wait sent while there is one returns one; and the service ends
every exit it takes. -/
theorem exited_children_reported_once (ids : SystemTasks n) {events : List (ProcEvent n)}
    (boot : Boot ids s)
    (run : Run (Run.Guarded (Careful ids) (fun s e => e.exec ids s)) s events s') :
    (∀ p ∈ s'.chain, ∀ c ∈ s'.chain, c ≠ ids.kernel →
      (s'.children p).count c = if s'.parentId c = p then 1 else 0) ∧
    (∀ p c status, s'.ended c = some (p, status) → s'.state p = .active →
      WaitedFor ids p c →
      s'.reports p c status = if s'.state c = .hanging then 0 else 1) ∧
    (∀ p c status, (p, c, status) ∈ s'.told → s'.ended c = some (p, status) ∧
      s'.told.count (p, c, status) = 1) ∧
    (∀ p, s'.inCall p → s'.request p = none → s'.waiting p = none →
      ∃ returned, (ProcEvent.takeReply p).exec ids s' = some returned) ∧
    (∀ p target, s'.waiting p = some target → ∀ c, s'.state c = .hanging →
      s'.parentId c = p → ¬ Accepts target c) ∧
    (∀ p target c, s'.request p = some target → s'.state c = .hanging → s'.parentId c = p →
      Accepts target c →
      ∃ served returned d, (ProcEvent.serveWait p true).exec ids s' = some served ∧
        (ProcEvent.takeReply p).exec ids served = some returned ∧
        s'.state d = .hanging ∧ s'.parentId d = p ∧ Accepts target d ∧
        returned.told = s'.told ++ [(p, d, s'.exitStatus d)]) ∧
    (∀ p status, p ≠ ids.init → ∃ next, (ProcEvent.exit p status true).exec ids s' =
      some next) := by
  have inv : ProcInv ids (fun _ => False) s' :=
    run.preserves (fun _ _ _ inv step => inv.step step.1 step.2) boot.inv
  refine ⟨?_, ?_, ?_, ?_, inv.heard, fun p target c => inv.wait_answered, ?_⟩
  · intro p pIn c cIn notKernel
    have standing : s'.state c ≠ .invalid := by
      have := inv.standing c cIn
      grind
    have listed := inv.tree.listed p pIn c
    split
    · rename_i names
      exact count_eq_one_of_mem (inv.tree.distinct p)
        (listed.mpr ⟨cIn, standing, notKernel, names⟩)
    · rename_i other
      exact count_eq_zero_of_not_mem fun member => other (listed.mp member).2.2.2
  · intro p c status ended active waited
    split
    · rename_i hanging
      exact inv.unreported (by simp [hanging]) id p status
    · have := inv.kept p c status ended active waited
      grind
  · intro p c status member
    have counted := count_pos_iff.mpr member
    have reported : 0 < s'.reports p c status := by
      simp only [Procs.reports]
      omega
    have atMost := inv.once p c status
    refine ⟨(inv.truthful p c status reported).1, ?_⟩
    simp only [Procs.reports] at atMost
    omega
  · intro p inCall request waiting
    obtain ⟨phase, call⟩ := inv.phase p
    cases phase <;> simp_all [Procs.call, Phase.call, exec]
  · intro p status notInit
    by_cases kernel : p = ids.kernel
    · exact ⟨s', by simp [exec, kernel]⟩
    · obtain ⟨next, ends, _⟩ := inv.exit notInit kernel status
      exact ⟨next, by simp [exec, kernel, ends]⟩

/-- The kernel, the init task and the device manager, with three numbers to hand out. -/
def smallTasks : SystemTasks 6 := ⟨0, 1, 2, by decide⟩

def booted : Procs 6 where
  chain := [0, 1, 2]
  born c := c < 3
  state c := if c < 3 then .active else .invalid
  parentId _ := 0
  children p := if p = 0 then [2, 1] else []
  exitStatus _ := 0
  inCall _ := false
  request _ := none
  waiting _ := none
  mail _ := []
  told := []
  ended _ := none

theorem booted_boot : Boot smallTasks booted := by
  refine ⟨⟨?_, ?_, ?_, ?_, ?_⟩, ?_, ?_, ?_, ?_, fun _ => rfl, ?_, ?_⟩ <;> decide

theorem exited_children_reported_once_zombie :
    ∃ s', Run (Run.Guarded (Careful smallTasks) (fun s e => e.exec smallTasks s)) booted
        [.append 1 3, .append 3 4, .append 3 5, .exit 4 7 true, .callWait 3 none] s' ∧
      ∃ served returned d, (ProcEvent.serveWait 3 true).exec smallTasks s' = some served ∧
        (ProcEvent.takeReply 3).exec smallTasks served = some returned ∧
        s'.state d = .hanging ∧ s'.parentId d = 3 ∧ Accepts none d ∧
        returned.told = s'.told ++ [(3, d, s'.exitStatus d)] := by
  have reached :
    ∃ s', Run (Run.Guarded (Careful smallTasks) (fun s e => e.exec smallTasks s)) booted
      [.append 1 3, .append 3 4, .append 3 5, .exit 4 7 true, .callWait 3 none] s' ∧
      s'.request 3 = some none ∧ s'.state 4 = .hanging ∧ s'.parentId 4 = 3 :=
    Run.exists_guarded (by decide +kernel)
  obtain ⟨s', run, request, hanging, parent⟩ := reached
  refine ⟨s', run, ?_⟩
  exact (exited_children_reported_once smallTasks booted_boot run).2.2.2.2.2.1 3 none 4 request
    hanging parent (.inl rfl)

/-- A parent that waits for one child stays blocked though another has exited, and a child of
the init task that exits while that task is not in a wait is never reported to it. -/
theorem exited_children_unreported : Boot smallTasks booted ∧
    (∃ s', Run (Run.Guarded (Careful smallTasks) (fun s e => e.exec smallTasks s)) booted
        [.append 1 3, .append 3 4, .append 3 5, .callWait 3 (some 4), .serveWait 3 true,
          .exit 5 7 true] s' ∧
      s'.waiting 3 = some (some 4) ∧ s'.state 5 = .hanging ∧ s'.parentId 5 = 3 ∧
      s'.reports 3 5 7 = 0) ∧
    (∃ s', Run (Run.Guarded (Careful smallTasks) (fun s e => e.exec smallTasks s)) booted
        [.append 1 3, .exit 3 7 true, .callWait 1 none, .serveWait 1 true, .takeReply 1] s' ∧
      s'.ended 3 = some (1, 7) ∧ s'.state 1 = .active ∧ s'.state 3 = .invalid ∧
      s'.reports 1 3 7 = 0) := by
  refine ⟨booted_boot, Run.exists_guarded ?_, Run.exists_guarded ?_⟩ <;> decide +kernel

/-- An answer that cannot be handed over leaves the parent blocked over an exited child, or
takes the child away untold; one asked for by another thread goes to the main thread. -/
theorem answers_lost : (∃ s', Run (fun s e s' => exec smallTasks s e = some s') booted
        [.append 1 3, .append 3 4, .callWait 3 none, .serveWait 3 true, .exit 4 7 false] s' ∧
      s'.waiting 3 = some none ∧ s'.state 4 = .hanging ∧ s'.parentId 4 = 3) ∧
    (∃ s', Run (fun s e s' => exec smallTasks s e = some s') booted
        [.append 1 3, .append 3 4, .exit 4 7 true, .callWait 3 none, .serveWait 3 false] s' ∧
      s'.inCall 3 = true ∧ s'.request 3 = none ∧ s'.state 4 = .invalid ∧
      s'.reports 3 4 7 = 0) ∧
    (∃ s', Run (fun s e s' => exec smallTasks s e = some s') booted
        [.append 1 3, .append 3 4, .exit 4 7 true, .serveAside 3 none true] s' ∧
      s'.inCall 3 = false ∧ s'.mail 3 = [some (4, 7)]) := by
  refine ⟨Run.exists_decide ?_, Run.exists_decide ?_, Run.exists_decide ?_⟩ <;> decide +kernel

end Mecocoa.Process
