import Mecocoa.Lib.Run
import Mecocoa.Sched.Taskman

/-! # The run queues

Every thread is in at most one queue and a bitmap says which queues have threads.
The check for duplicates looks at the links of the thread and at one head only, so
that a thread that is alone in another queue passes it.
-/

namespace Mecocoa.Sched

open List Sched

open Lib (LinkedQueues Run)
open Lib.LinkedQueues (Represents firstFrom chainFrom)
open Function (update update_self update_of_ne)

variable {s s' : Taskman n c}

/-- The queues have the members `q`, and the bitmaps tell which are not empty. -/
structure QueuesOk (s : Taskman n c) (q : QueueKey → List (Fin n)) : Prop where
  rep : Represents s.queues q
  bits : ∀ array (i : Fin 32), (s.bitmap array).getLsbD i.val = true ↔ q (array, i) ≠ []

def WellFormed (s : Taskman n c) : Prop := ∃ q, QueuesOk s q

/-! ## Bits -/

theorem getLsbD_queueBit (i j : Fin 32) : (queueBit i).getLsbD j.val = decide (i = j) := by
  revert i j
  decide +kernel

theorem getLsbD_upperMask (i : Fin 32) : upperMask.getLsbD i.val = decide (16 ≤ i.val) := by
  revert i
  decide

theorem mem_upperHalf (i : Fin 32) : i ∈ upperHalf ↔ 16 ≤ i.val := by
  revert i
  decide

theorem mem_setBits (bitmap : BitVec 32) (i : Fin 32) :
    i ∈ setBits bitmap ↔ bitmap.getLsbD i.val = true := by
  simp [setBits]

theorem and_upperMask_eq_zero (none : bitmap &&& upperMask = 0) (i : Fin 32)
    (upper : 16 ≤ i.val) : bitmap.getLsbD i.val = false := by
  have bit := congrArg (fun b => b.getLsbD i.val) none
  rw [BitVec.getLsbD_and, getLsbD_upperMask, decide_eq_true upper, Bool.and_true] at bit
  exact bit.trans (by simp)

/-! ## Enqueue and dequeue -/

section Calls

variable (ok : QueuesOk s q)

include ok

theorem QueuesOk.bits_update
    (here : ∀ j : Fin 32, bitmap.getLsbD j.val = if j = i then !l.isEmpty
      else (s.bitmap array).getLsbD j.val)
    (array' : QueueArray) (j : Fin 32) :
    (update s.bitmap array bitmap array').getLsbD j.val = true ↔
      update q (array, i) l (array', j) ≠ [] := by
  by_cases sameArray : array' = array
  · subst sameArray
    rw [update_self, here j]
    by_cases same : j = i
    · subst same
      cases l <;> simp
    · rw [if_neg same, update_of_ne (by simp [same])]
      exact ok.bits array' j
  · rw [update_of_ne sameArray, update_of_ne (by simp [sameArray])]
    exact ok.bits array' j

theorem QueuesOk.linkLast (fresh : ∀ k, t ∉ q k) :
    QueuesOk (linkLast array mark s t) (update q (array, queueIndex (s.threads t).priority)
      (q (array, queueIndex (s.threads t).priority) ++ [t])) := by
  refine ⟨ok.rep.pushBack _ fresh, ?_⟩
  apply ok.bits_update
  intro j
  rw [BitVec.getLsbD_or, getLsbD_queueBit]
  by_cases same : j = queueIndex (s.threads t).priority
  · subst same
    simp
  · simp [same, Ne.symm same]

theorem QueuesOk.enqueue_fresh (fresh : ∀ k, t ∉ q k)
    (able : (s.threads t).state = .ready ∨ (s.threads t).state = .running) :
    enqueue array mark s t = Sched.linkLast array mark s t := by
  have links := ok.rep.free t fresh
  unfold enqueue
  rw [if_neg, if_neg]
  · rintro (next | prev | head)
    · exact next links.1
    · exact prev links.2
    · exact fresh _ (ok.rep.mem_of_head head)
  · intro both
    cases able with
    | inl ready => exact both.1 ready
    | inr running => exact both.2 running

/-- The check for duplicates, on a thread that is in a queue. -/
theorem QueuesOk.enqueue_linked (member : t ∈ q k)
    (other : k = (array, queueIndex (s.threads t).priority) ∨
      ¬ (s.queues.head k = some t ∧ s.queues.tail k = some t)) : enqueue array mark s t = s := by
  unfold enqueue
  split
  · rfl
  rw [if_pos]
  by_contra missed
  simp only [not_or, ne_eq, not_not] at missed
  obtain ⟨next, prev, head⟩ := missed
  have sole : s.queues.head k = some t ∧ s.queues.tail k = some t := by
    rw [ok.rep.head, ok.rep.tail, ok.rep.alone member next prev]
    exact ⟨rfl, rfl⟩
  cases other with
  | inl same => exact head (same ▸ sole.1)
  | inr both => exact both sole

theorem QueuesOk.dequeue_free (absent : ∀ k, t ∉ q k) : dequeueReady s t = s := by
  have found : foundIn s (queueIndex (s.threads t).priority) t = none := by
    unfold foundIn
    rw [if_neg fun head => absent _ (ok.rep.mem_of_head head),
      if_neg fun head => absent _ (ok.rep.mem_of_head head),
      if_neg fun tail => absent _ (ok.rep.mem_of_tail tail), if_neg fun tail =>
      absent _ (ok.rep.mem_of_tail tail)]
  unfold dequeueReady
  dsimp only
  rw [found]
  rw [ok.rep.unlink_free absent]

theorem QueuesOk.foundIn (member : t ∈ q (array, i)) (idx : Fin 32) : foundIn s idx t =
      if idx = i ∧
      (s.queues.head (array, i) = some t ∨ s.queues.tail (array, i) = some t) then some array
      else none := by
  have head : ∀ array', s.queues.head (array', idx) = some t → array' = array ∧ idx = i := by
    intro array' here
    have same := ok.rep.apart _ _ t (ok.rep.mem_of_head here) member
    simpa using same
  have tail : ∀ array', s.queues.tail (array', idx) = some t → array' = array ∧ idx = i := by
    intro array' here
    have same := ok.rep.apart _ _ t (ok.rep.mem_of_tail here) member
    simpa using same
  unfold Sched.foundIn
  by_cases same : idx = i
  · subst same
    cases array <;> grind
  · grind

omit ok in
/-- Taking the thread out of the middle needs no look at the ends. -/
theorem unlink_eq_detach (head : s.queues.head k ≠ some t) (tail : s.queues.tail k ≠ some t) :
    s.queues.unlink t = s.queues.detach k t := by
  unfold Lib.LinkedQueues.detach
  rw [if_neg head, if_neg tail]
  rfl

theorem QueuesOk.erase_nil (member : t ∈ q k)
    (empty : (q k).erase t = []) : s.queues.head k = some t := by
  have single : q k = [t] := by
    have perm := perm_cons_erase member
    rw [empty] at perm
    exact perm_singleton.mp perm
  rw [ok.rep.head, single]
  rfl

/-- `DequeueReady` of a thread in a queue, if it is in one for its priority or inside another. -/
theorem QueuesOk.dequeue (member : t ∈ q (array, i))
    (place : queueIndex (s.threads t).priority = i ∨
    s.queues.head (array, i) ≠ some t ∧ s.queues.tail (array, i) ≠ some t) :
    QueuesOk (dequeueReady s t) (update q (array, i) ((q (array, i)).erase t)) := by
  have rep := ok.rep.detach member
  have shut : (s.queues.detach (array, i) t).head (array, i) = none ↔
      (q (array, i)).erase t = [] := by
    rw [rep.head, update_self, head?_eq_none_iff]
  have kept : (q (array, i)).erase t ≠ [] → ∀ array' (j : Fin 32),
      (s.bitmap array').getLsbD j.val = true ↔
          update q (array, i) ((q (array, i)).erase t) (array', j) ≠ [] := by
    intro filled array' j
    rw [ok.bits]
    by_cases same : (array', j) = (array, i)
    · rw [same, update_self]
      exact ⟨fun _ => filled, fun _ none => by simp [none] at member⟩
    · rw [update_of_ne same]
  by_cases atEnd : queueIndex (s.threads t).priority = i ∧
      (s.queues.head (array, i) = some t ∨ s.queues.tail (array, i) = some t)
  · have found : Sched.foundIn s (queueIndex (s.threads t).priority) t = some array := by
      rw [ok.foundIn member, if_pos atEnd]
    unfold dequeueReady
    dsimp only
    rw [found, atEnd.1]
    refine ⟨rep, ?_⟩
    dsimp only
    by_cases empty : (q (array, i)).erase t = []
    · rw [if_pos (shut.mpr empty)]
      apply ok.bits_update
      intro j
      rw [BitVec.getLsbD_and, BitVec.getLsbD_not, getLsbD_queueBit, empty]
      by_cases same : j = i
      · simp [same]
      · simp [same, Ne.symm same]
    · rw [if_neg fun none => empty (shut.mp none)]
      exact kept empty
  · have found : Sched.foundIn s (queueIndex (s.threads t).priority) t = none := by
      rw [ok.foundIn member, if_neg atEnd]
    have ends : s.queues.head (array, i) ≠ some t ∧ s.queues.tail (array, i) ≠ some t := by
      cases place with
      | inl same => exact not_or.mp fun either => atEnd ⟨same, either⟩
      | inr ends => exact ends
    unfold dequeueReady
    dsimp only
    rw [found]
    rw [unlink_eq_detach ends.1 ends.2]
    exact ⟨rep, kept fun empty => ends.1 (ok.erase_nil member empty)⟩

/-- Alone in a queue for another priority, the thread stays there. -/
theorem QueuesOk.dequeue_sole (single : q (array, i) = [t])
    (other : queueIndex (s.threads t).priority ≠ i) : dequeueReady s t = s := by
  have member : t ∈ q (array, i) := by simp [single]
  have found : Sched.foundIn s (queueIndex (s.threads t).priority) t = none := by
    rw [ok.foundIn member, if_neg fun both => other both.1]
  obtain ⟨noPrev, noNext⟩ := ok.rep.links (show q (array, i) = [] ++ t :: [] from single)
  rw [getLast?_nil] at noPrev
  rw [head?_nil] at noNext
  have next : update s.queues.next t none = s.queues.next := by
    rw [← noNext]
    exact Function.update_eq_self t s.queues.next
  have prev : update s.queues.prev t none = s.queues.prev := by
    rw [← noPrev]
    exact Function.update_eq_self t s.queues.prev
  unfold dequeueReady
  dsimp only
  rw [found]
  unfold Lib.LinkedQueues.unlink Lib.LinkedQueues.setLink
  rw [noPrev, noNext]
  rw [next, prev]

/-- Where a dequeue for another priority leaves well-formed queues, the thread was at both ends or
at none. -/
theorem QueuesOk.dequeue_end (member : t ∈ q (array, i))
    (other : queueIndex (s.threads t).priority ≠ i)
    (ok' : QueuesOk (dequeueReady s t) q') :
    s.queues.head (array, i) = some t ↔ s.queues.tail (array, i) = some t := by
  have found : Sched.foundIn s (queueIndex (s.threads t).priority) t = none := by
    rw [ok.foundIn member, if_neg fun both => other both.1]
  have is : dequeueReady s t = { s with queues := s.queues.unlink t } := by
    unfold dequeueReady
    dsimp only
    rw [found]
  rw [is] at ok'
  have rep := ok'.rep
  have cleared : (s.queues.unlink t).next t = none ∧ (s.queues.unlink t).prev t = none := by
    simp [Lib.LinkedQueues.unlink]
  constructor
  · intro head
    have single := rep.alone (rep.mem_of_head head) cleared.1 cleared.2
    have tail := rep.tail (array, i)
    rw [single] at tail
    exact tail
  · intro tail
    have single := rep.alone (rep.mem_of_tail tail) cleared.1 cleared.2
    have head := rep.head (array, i)
    rw [single] at head
    exact head

omit ok

end Calls

/-! ## The epoch swap -/

/-- The members after the queues of some indices are swapped. -/
def swapped (q : QueueKey → List (Fin n)) (indices : List (Fin 32)) : QueueKey → List (Fin n)
  | (.priority, i) => if i ∈ indices then q (.expired, i) else q (.priority, i)
  | (.expired, i) => if i ∈ indices then [] else q (.expired, i)

/-- A thread differs at most in that its epoch is over. -/
def Renewed (th th' : Thread) : Prop := th' = th ∨ th' = { th with isExpired := false }

/-- Only the queues and the marks of expired threads changed. -/
structure Swapped (s s' : Taskman n c) : Prop where
  threads : ∀ t, Renewed (s.threads t) (s'.threads t)
  current : s'.current = s.current
  idle : s'.idle = s.idle
  switchingOut : s'.switchingOut = s.switchingOut

theorem Renewed.trans (first : Renewed a b) (second : Renewed b d) : Renewed a d := by
  cases first with
  | inl same => exact same ▸ second
  | inr same =>
    cases second with
    | inl same' => exact .inr (same'.trans same)
    | inr same' => exact .inr (by rw [same', same])

theorem Swapped.refl (s : Taskman n c) : Swapped s s := ⟨fun _ => .inl rfl, rfl, rfl, rfl⟩

theorem Swapped.trans (first : Swapped s₁ s₂) (second : Swapped s₂ s₃) :
    Swapped s₁ s₃ :=
  ⟨fun t => (first.threads t).trans (second.threads t), second.current.trans first.current,
    second.idle.trans first.idle, second.switchingOut.trans first.switchingOut⟩

theorem swapQueue_ok (rep : Represents s.queues q) (empty : q (.priority, i) = []) :
    ∃ s', swapQueue s i = some s' ∧ Represents s'.queues (swapped q [i]) ∧ Swapped s s' ∧
      s'.bitmap = s.bitmap := by
  have moved := rep.move (show ((.expired, i) : QueueKey) ≠ (.priority, i) by simp) empty
  have is : update (update q (.priority, i) (q (.expired, i))) (.expired, i) [] =
      swapped q [i] := by
    funext ⟨array, j⟩
    cases array with
    | priority =>
      by_cases same : j = i
      · simp [swapped, update, same]
      · simp [swapped, update, same]
    | expired =>
      by_cases same : j = i
      · simp [swapped, update, same]
      · simp [swapped, update, same]
  rw [is] at moved
  unfold swapQueue
  dsimp only
  rw [moved.chainFrom]
  refine ⟨_, rfl, moved, ⟨fun t => ?_, rfl, rfl, rfl⟩, rfl⟩
  dsimp only
  split
  · exact .inr rfl
  · exact .inl rfl

theorem swapQueues_ok (indices : List (Fin 32)) :
    ∀ {s : Taskman n c} {q : QueueKey → List (Fin n)},
    Represents s.queues q → indices.Nodup → (∀ i ∈ indices, q (.priority, i) = []) →
      ∃ s', indices.foldlM swapQueue s = some s' ∧ Represents s'.queues (swapped q indices) ∧
        Swapped s s' ∧ s'.bitmap = s.bitmap := by
  induction indices with
  | nil =>
    intro s q rep _ _
    have same : swapped q [] = q := by
      funext ⟨array, i⟩
      cases array <;> simp [swapped]
    exact ⟨s, rfl, same ▸ rep, .refl s, rfl⟩
  | cons i indices ih =>
    intro s q rep distinct empty
    obtain ⟨absent, distinct⟩ := nodup_cons.mp distinct
    obtain ⟨s₁, ran, rep₁, swap₁, bits₁⟩ := swapQueue_ok rep (empty i (.head _))
    have empty₁ : ∀ j ∈ indices, swapped q [i] (.priority, j) = [] := by
      intro j member
      have other : j ≠ i := fun same => absent (same ▸ member)
      simp [swapped, other, empty j (mem_cons_of_mem i member)]
    obtain ⟨s₂, ran₂, rep₂, swap₂, bits₂⟩ := ih rep₁ distinct empty₁
    have both : swapped (swapped q [i]) indices = swapped q (i :: indices) := by
      funext ⟨array, j⟩
      cases array with
      | priority => by_cases there : j ∈ indices <;> by_cases same : j = i <;> grind [swapped]
      | expired => by_cases there : j ∈ indices <;> by_cases same : j = i <;> grind [swapped]
    refine ⟨s₂, ?_, both ▸ rep₂, swap₁.trans swap₂, bits₂.trans bits₁⟩
    rw [foldlM_cons, ran]
    exact ran₂

/-- The members after the swap, if there is one. -/
def afterSwap (s : Taskman n c) (q : QueueKey → List (Fin n)) : QueueKey → List (Fin n) :=
  if SwapDue s then swapped q upperHalf else q

/-- A swap finds the active queues that it fills empty. -/
theorem QueuesOk.upper_empty (ok : QueuesOk s q) (ended : s.bitmap .priority &&& upperMask = 0)
    (high : i ∈ upperHalf) : q (.priority, i) = [] := by
  by_contra filled
  have bit := (ok.bits .priority i).mpr filled
  rw [and_upperMask_eq_zero ended i ((mem_upperHalf i).mp high)] at bit
  cases bit

theorem QueuesOk.epochSwap (ok : QueuesOk s q) :
    ∃ s', epochSwap s = some s' ∧ QueuesOk s' (afterSwap s q) ∧ Swapped s s' := by
  unfold Sched.epochSwap afterSwap
  by_cases due : SwapDue s
  · obtain ⟨s', ran, rep, swap, bits⟩ :=
      swapQueues_ok upperHalf ok.rep (by decide) fun i high => ok.upper_empty due.1 high
    rw [if_pos due, if_pos due, ran]
    refine ⟨_, rfl, ⟨rep, fun array i => ?_⟩,
      ⟨swap.threads, swap.current, swap.idle, swap.switchingOut⟩⟩
    have ready := ok.bits .priority i
    have expired := ok.bits .expired i
    by_cases upper : 16 ≤ i.val
    · have member := (mem_upperHalf i).mpr upper
      have none := and_upperMask_eq_zero due.1 i upper
      cases array with
      | priority =>
        simp only [bits, BitVec.getLsbD_or, BitVec.getLsbD_and, getLsbD_upperMask, upper, none,
          swapped, if_pos member]
        simpa using expired
      | expired => simp [bits, getLsbD_upperMask, upper, swapped, member]
    · have outside : i ∉ upperHalf := fun member => upper ((mem_upperHalf i).mp member)
      cases array with
      | priority =>
        simpa only [bits, BitVec.getLsbD_or, BitVec.getLsbD_and, getLsbD_upperMask, upper,
          decide_false,
          Bool.and_false, Bool.or_false, swapped, if_neg outside] using ready
      | expired =>
        simpa only [bits, BitVec.getLsbD_and, BitVec.getLsbD_not, getLsbD_upperMask, upper, i.isLt,
          decide_false, decide_true, Bool.not_false, Bool.and_true, swapped,
          if_neg outside] using expired
  · rw [if_neg due, if_neg due]
    exact ⟨s, rfl, ok, .refl s⟩

/-! ## The choice -/

theorem scanQueues_eq (rep : Represents s.queues q) (array : QueueArray) (p : Fin n → Bool)
    (indices : List (Fin 32)) :
    scanQueues s array p indices = some ((indices.flatMap fun i => q (array, i)).find? p) := by
  induction indices with
  | nil => rfl
  | cons i indices ih =>
    unfold scanQueues
    rw [rep.firstFrom, flatMap_cons, find?_append]
    cases hit : (q (array, i)).find? p with
    | none => simpa using ih
    | some t => simp

/-- Only which threads are being switched away from changed. -/
structure Released (s s' : Taskman n c) : Prop where
  threads : s'.threads = s.threads
  queues : s'.queues = s.queues
  bitmap : s'.bitmap = s.bitmap
  current : s'.current = s.current
  idle : s'.idle = s.idle

theorem picked_released (s : Taskman n c) (choice : Option (Fin n)) :
    Released s (picked s choice).2 := by
  cases choice with
  | none => exact ⟨rfl, rfl, rfl, rfl, rfl⟩
  | some t =>
    unfold picked releaseSwitching
    dsimp only
    split <;> exact ⟨rfl, rfl, rfl, rfl, rfl⟩

theorem QueuesOk.released (ok : QueuesOk s q) (released : Released s s') : QueuesOk s' q :=
  ⟨released.queues ▸ ok.rep, released.bitmap ▸ ok.bits⟩

/-- `PickNext` returns, with a queued thread that may run or with none. -/
theorem QueuesOk.pickFrom (ok : QueuesOk s q) (affinity : Bool) (core : Fin c) :
    ∃ choice s', pickFrom affinity core s = some (choice, s') ∧ Released s s' ∧
      ∀ t, choice = some t → (∃ k, t ∈ q k) ∧ eligible s core t = true := by
  have queued : ∀ {array indices t}, (flatMap (fun i => q (array, i)) indices).find?
      (fun t => eligible s core t && runnableHere affinity s core t) = some t →
        (∃ k, t ∈ q k) ∧ eligible s core t = true := by
    intro array indices t found
    obtain ⟨i, -, member⟩ := mem_flatMap.mp (mem_of_find?_eq_some found)
    have able := find?_some found
    exact ⟨⟨_, member⟩, (Bool.and_eq_true_iff.mp able).1⟩
  unfold Sched.pickFrom
  simp only [scanQueues_eq ok.rep, Option.bind_some]
  split
  · rename_i t found
    refine ⟨_, _, rfl, picked_released s (some t), fun t' same => ?_⟩
    cases same
    exact queued found
  · split
    · refine ⟨_, _, rfl, picked_released s _, fun t' same => ?_⟩
      generalize found : find? _ _ = choice at same
      cases choice with
      | none => exact absurd same (by simp)
      | some t =>
        cases same
        exact queued found
    · exact ⟨none, s, rfl, ⟨rfl, rfl, rfl, rfl, rfl⟩, by simp⟩

/-! ## Any calls -/

inductive QueueCall (n c : Nat) where
  | enqueueReady (pb : Fin n)
  | enqueueExpired (pb : Fin n)
  | dequeueReady (pb : Fin n)
  | pickNext (core : Fin c)

def QueueCall.exec (affinity : Bool) (s : Taskman n c) : QueueCall n c → Option (Taskman n c)
  | .enqueueReady pb => some (Sched.enqueueReady s pb)
  | .enqueueExpired pb => some (Sched.enqueueExpired s pb)
  | .dequeueReady pb => some (Sched.dequeueReady s pb)
  | .pickNext core => (Sched.pickNext affinity core s).map (·.2)

theorem QueuesOk.start (threads : Fin n → Thread) (current idle : Fin c → Fin n) :
    QueuesOk (Taskman.start threads current idle) fun _ => [] :=
  ⟨Lib.LinkedQueues.represents_empty, by simp [Taskman.start]⟩

/-- A thread that may be put into a queue is not alone in another one. -/
def MayEnqueue (array : QueueArray) (s : Taskman n c) (pb : Fin n) : Prop :=
  (s.threads pb).state = .ready ∨ (s.threads pb).state = .running →
    ∀ k, s.queues.head k = some pb → s.queues.tail k = some pb →
    k = (array, queueIndex (s.threads pb).priority)

/-- A thread at one end only of a queue is in the queue for its priority. -/
def MayDequeue (s : Taskman n c) (pb : Fin n) : Prop :=
  ∀ array i, i ≠ queueIndex (s.threads pb).priority →
    (s.queues.head (array, i) = some pb ↔ s.queues.tail (array, i) = some pb)

instance (array : QueueArray) (s : Taskman n c) (pb : Fin n) :
    Decidable (MayEnqueue array s pb) := by
  unfold MayEnqueue
  infer_instance

def QueueCall.Sound (s : Taskman n c) : QueueCall n c → Prop
  | .enqueueReady pb => MayEnqueue .priority s pb
  | .enqueueExpired pb => MayEnqueue .expired s pb
  | .dequeueReady pb => MayDequeue s pb
  | .pickNext _ => True

theorem wellFormed_enqueue (wf : WellFormed s) (t : Fin n) :
    WellFormed (enqueue array mark s t) ↔ MayEnqueue array s t := by
  obtain ⟨q, ok⟩ := wf
  by_cases able : (s.threads t).state = .ready ∨ (s.threads t).state = .running
  · by_cases fresh : ∀ k, t ∉ q k
    · rw [ok.enqueue_fresh fresh able]
      constructor
      · intro _ _ k head
        exact absurd (ok.rep.mem_of_head head) (fresh k)
      · intro _
        exact ⟨_, ok.linkLast fresh⟩
    · simp only [not_forall, not_not] at fresh
      obtain ⟨k, member⟩ := fresh
      by_cases alone : s.queues.head k = some t ∧ s.queues.tail k = some t
      · by_cases same : k = (array, queueIndex (s.threads t).priority)
        · rw [ok.enqueue_linked member (.inl same)]
          constructor
          · intro _ _ k' head _
            exact (ok.rep.apart k' k t (ok.rep.mem_of_head head) member).trans same
          · exact fun _ => ⟨q, ok⟩
        · constructor
          · rintro ⟨q', ok'⟩
            exfalso
            -- The thread is the last of two queues.
            have single := ok.rep.eq_singleton alone.1 alone.2
            obtain ⟨noPrev, noNext⟩ := ok.rep.links (show q k = [] ++ t :: [] from single)
            have missed : ¬ (s.queues.next t ≠ none ∨ s.queues.prev t ≠ none ∨
                s.queues.head (array, queueIndex (s.threads t).priority) = some t) := by
              rintro (next | prev | head)
              · exact next noNext
              · exact prev noPrev
              · exact same (ok.rep.apart k _ t member (ok.rep.mem_of_head head))
            have linked : enqueue array mark s t = linkLast array mark s t := by
              unfold enqueue
              rw [if_neg (by grind), if_neg missed]
            rw [linked] at ok'
            have here : (linkLast array mark s t).queues.tail
                (array, queueIndex (s.threads t).priority) = some t := by
              unfold linkLast Lib.LinkedQueues.pushBack
              dsimp only
              split <;> simp
            have there : (linkLast array mark s t).queues.tail k = some t := by
              unfold linkLast Lib.LinkedQueues.pushBack
              dsimp only
              split <;> simp [update_of_ne same, alone.2]
            exact same (ok'.rep.apart _ _ t (ok'.rep.mem_of_tail there) (ok'.rep.mem_of_tail here))
          · intro may
            exact absurd (may able k alone.1 alone.2) same
      · rw [ok.enqueue_linked member (.inr alone)]
        constructor
        · intro _ _ k' head tail
          cases ok.rep.apart k' k t (ok.rep.mem_of_head head) member
          exact absurd ⟨head, tail⟩ alone
        · exact fun _ => ⟨q, ok⟩
  · have same : enqueue array mark s t = s := by
      unfold enqueue
      rw [if_pos (by grind)]
    rw [same]
    exact ⟨fun _ able' => absurd able' able, fun _ => ⟨q, ok⟩⟩

theorem wellFormed_dequeue (wf : WellFormed s) (t : Fin n) :
    WellFormed (dequeueReady s t) ↔ MayDequeue s t := by
  obtain ⟨q, ok⟩ := wf
  by_cases absent : ∀ k, t ∉ q k
  · rw [ok.dequeue_free absent]
    constructor
    · intro _ array i _
      constructor
      · exact fun head => absurd (ok.rep.mem_of_head head) (absent _)
      · exact fun tail => absurd (ok.rep.mem_of_tail tail) (absent _)
    · exact fun _ => ⟨q, ok⟩
  simp only [not_forall, not_not] at absent
  obtain ⟨⟨array, i⟩, member⟩ := absent
  -- The only queue whose ends can be the thread is its own.
  have may : MayDequeue s t ↔ i ≠ queueIndex (s.threads t).priority →
      (s.queues.head (array, i) = some t ↔ s.queues.tail (array, i) = some t) := by
    constructor
    · exact fun may => may array i
    · intro own array' j other
      have only : ∀ {k : QueueKey}, t ∈ q k → k = (array, i) :=
        fun here => ok.rep.apart _ _ t here member
      constructor
      · intro head
        cases only (ok.rep.mem_of_head head)
        exact (own other).mp head
      · intro tail
        cases only (ok.rep.mem_of_tail tail)
        exact (own other).mpr tail
  rw [may]
  by_cases own : queueIndex (s.threads t).priority = i
  · exact ⟨fun _ other => absurd own.symm other,
      fun _ => ⟨_, ok.dequeue member (.inl own)⟩⟩
  by_cases both : s.queues.head (array, i) = some t ↔ s.queues.tail (array, i) = some t
  · refine iff_of_true ?_ fun _ => both
    by_cases head : s.queues.head (array, i) = some t
    · rw [ok.dequeue_sole (ok.rep.eq_singleton head (both.mp head)) own]
      exact ⟨q, ok⟩
    · exact ⟨_, ok.dequeue member (.inr ⟨head, mt both.mpr head⟩)⟩
  · refine iff_of_false ?_ fun may => both (may (Ne.symm own))
    rintro ⟨q', ok'⟩
    exact both (ok.dequeue_end member own ok')

theorem wellFormed_pickNext (wf : WellFormed s) (affinity : Bool) (core : Fin c) :
    ∃ choice s', pickNext affinity core s = some (choice, s') ∧ WellFormed s' := by
  obtain ⟨q, ok⟩ := wf
  obtain ⟨s₁, swap, ok₁, -⟩ := ok.epochSwap
  obtain ⟨choice, s₂, pick, released, -⟩ := ok₁.pickFrom affinity core
  refine ⟨choice, s₂, ?_, _, ok₁.released released⟩
  unfold pickNext
  rw [swap]
  exact pick

/-- One call keeps the queues well formed exactly where it is sound. -/
theorem QueueCall.exec_wellFormed (affinity : Bool) (wf : WellFormed s) (call : QueueCall n c) :
    (∃ s', call.exec affinity s = some s' ∧ WellFormed s') ↔ call.Sound s := by
  have total : ∀ s₁ : Taskman n c, (∃ s', some s₁ = some s' ∧ WellFormed s') ↔
      WellFormed s₁ := by
    intro s₁
    simp
  cases call with
  | enqueueReady pb => exact (total _).trans (wellFormed_enqueue wf pb)
  | enqueueExpired pb => exact (total _).trans (wellFormed_enqueue wf pb)
  | dequeueReady pb => exact (total _).trans (wellFormed_dequeue wf pb)
  | pickNext core =>
    obtain ⟨choice, s', pick, wf'⟩ := wellFormed_pickNext wf affinity core
    refine iff_of_true ⟨s', ?_, wf'⟩ trivial
    simp [QueueCall.exec, pick]

/-- All calls return, and the queues are well formed after each of them. -/
def StaysWellFormed (affinity : Bool) : Taskman n c → List (QueueCall n c) → Prop
  | s, [] => WellFormed s
  | s, call :: calls => WellFormed s ∧ ∃ s', call.exec affinity s = some s' ∧
    StaysWellFormed affinity s' calls

/-- Every call is sound where it is made. -/
def SoundCalls (affinity : Bool) : Taskman n c → List (QueueCall n c) → Prop
  | _, [] => True
  | s, call :: calls => call.Sound s ∧ ∀ s', call.exec affinity s = some s' →
    SoundCalls affinity s' calls

/-- From well-formed queues, any calls keep them so exactly where none of them puts a thread that is
alone in one queue into another, or takes a thread from one end of a queue for another priority. -/
theorem queues_stay_wellFormed (affinity : Bool) (calls : List (QueueCall n c)) :
    ∀ s : Taskman n c, WellFormed s →
      (StaysWellFormed affinity s calls ↔ SoundCalls affinity s calls) := by
  induction calls with
  | nil => exact fun s wf => iff_of_true wf trivial
  | cons call calls ih =>
    intro s wf
    have step := call.exec_wellFormed affinity wf
    constructor
    · rintro ⟨-, s', ran, stays⟩
      have wf' : WellFormed s' := by
        cases calls with
        | nil => exact stays
        | cons _ _ => exact stays.1
      refine ⟨step.mp ⟨s', ran, wf'⟩, fun s'' ran' => ?_⟩
      cases ran.symm.trans ran'
      exact (ih s' wf').mp stays
    · rintro ⟨sound, rest⟩
      obtain ⟨s', ran, wf'⟩ := step.mpr sound
      exact ⟨wf, s', ran, (ih s' wf').mpr (rest s' ran)⟩

/-- Two ready threads of one priority. -/
def twoReady (t : Fin 2) : Taskman 2 1 :=
  .start (fun _ => { state := .ready, priority := 4 }) (fun _ => t) (fun _ => t)

theorem queues_stay_wellFormed_both : WellFormed (twoReady 0) ∧
    StaysWellFormed false (twoReady 0) [.enqueueReady 0, .enqueueReady 1] := by
  have start : WellFormed (twoReady 0) := ⟨_, QueuesOk.start _ _ _⟩
  refine ⟨start, (queues_stay_wellFormed false _ (twoReady 0) start).mpr
    ⟨?_, fun s' ran => ⟨?_, by simp [SoundCalls]⟩⟩⟩
  · change MayEnqueue .priority (twoReady 0) 0
    decide +kernel
  · cases ran
    change MayEnqueue .priority (enqueueReady (twoReady 0) 0) 1
    decide +kernel

/-- Expired and then made ready, a thread alone in its expired queue is in two queues. -/
theorem queues_not_wellFormed_twice : WellFormed (twoReady 0) ∧
    ¬ StaysWellFormed false (twoReady 0) [.enqueueExpired 0, .enqueueReady 0] := by
  have start : WellFormed (twoReady 0) := ⟨_, QueuesOk.start _ _ _⟩
  refine ⟨start, ?_⟩
  rintro ⟨-, s₁, ran, wf₁, s₂, ran', wf₂⟩
  cases ran
  cases ran'
  have may : MayEnqueue .priority (enqueueExpired (twoReady 0) 0) 0 :=
    (wellFormed_enqueue wf₁ 0).mp wf₂
  exact absurd may (by decide +kernel)

end Mecocoa.Sched
