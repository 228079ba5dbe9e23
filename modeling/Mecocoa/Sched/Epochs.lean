import Mecocoa.Sched.Runs

/-! # Epochs

A swap takes up the expired queues of A-type threads only.  As long as no B-type
thread is put into an expired queue, every queued thread is found by `PickNext`, at
once or when the active A-type threads are used up.  What it takes is the first that may
run, unless one is left in an expired queue.
-/

namespace Mecocoa.Sched

open Taskman

open Lib (Run)
open Lib.LinkedQueues (chainFrom)
open Function (Injective)

/-- The threads of a queue, as its links have them. -/
def members (s : Taskman n c) (k : QueueKey) : List (Fin n) :=
  (chainFrom s.queues.next (Fintype.card (Fin n)) (s.queues.head k)).getD []

def Queued (s : Taskman n c) (array : QueueArray) (t : Fin n) : Prop :=
  ∃ i, t ∈ members s (array, i)

/-- `PickNext` comes to the thread if it takes none before. -/
def Inspected (s : Taskman n c) (t : Fin n) : Prop :=
  ∃ s' ∈ epochSwap s, ∃ i ∈ setBits (s'.bitmap .priority), t ∈ members s' (.priority, i)

/-- No A-type thread is active. -/
def EpochOver (s : Taskman n c) : Prop := s.bitmap .priority &&& upperMask = 0

/-- Active threads are found, expired ones once the epoch is over, and a swap leaves none of
them. -/
structure NoneStranded (s : Taskman n c) : Prop where
  active : ∀ t, Queued s .priority t → Inspected s t
  expired : ∀ t, Queued s .expired t → EpochOver s → Inspected s t
  swap : SwapDue s → ∀ s' ∈ epochSwap s, ∀ t, ¬ Queued s' .expired t

theorem members_eq (ok : QueuesOk s q) (k : QueueKey) : members s k = q k := by
  unfold members
  rw [ok.rep.chainFrom]
  rfl

theorem QueuesOk.mem_afterSwap (ok : QueuesOk s q) (member : t ∈ q (.priority, i)) :
    t ∈ afterSwap s q (.priority, i) := by
  unfold afterSwap
  split
  · rename_i due
    have low : i ∉ upperHalf := by
      intro high
      rw [ok.upper_empty due.1 high] at member
      cases member
    simpa [swapped, low] using member
  · exact member

theorem Sound.noneStranded (sound : Sound True s) : NoneStranded s := by
  obtain ⟨q, inv⟩ := sound.sane
  obtain ⟨s', swap, ok', -⟩ := inv.queues.epochSwap
  have upper : ∀ {i : Fin 32} {t}, t ∈ q (.expired, i) → 16 ≤ i.val := by
    intro i t member
    rw [(inv.place _ i t member).1]
    exact queueIndex_upper ((inv.place _ i t member).2.2.2 trivial rfl)
  have found : ∀ {i t}, t ∈ afterSwap s q (.priority, i) → Inspected s t := by
    intro i t member
    refine ⟨s', swap, i, (mem_setBits ..).mpr ((ok'.bits .priority i).mpr ?_), ?_⟩
    · exact List.ne_nil_of_mem member
    · rwa [members_eq ok']
  refine ⟨fun t => ?_, fun t => ?_, fun due s₁ swap₁ t => ?_⟩
  · rintro ⟨i, member⟩
    rw [members_eq inv.queues] at member
    exact found (inv.queues.mem_afterSwap member)
  · rintro ⟨i, member⟩ ended
    rw [members_eq inv.queues] at member
    have high := upper member
    have due : SwapDue s := by
      refine ⟨ended, fun none => ?_⟩
      have bit := (inv.queues.bits .expired i).mpr (List.ne_nil_of_mem member)
      rw [and_upperMask_eq_zero none i high] at bit
      exact absurd bit (by simp)
    apply found (i := i)
    unfold afterSwap
    rw [if_pos due]
    simpa [swapped, (mem_upperHalf i).mpr high] using member
  · rintro ⟨i, member⟩
    cases swap.symm.trans swap₁
    rw [members_eq ok'] at member
    unfold afterSwap at member
    rw [if_pos due] at member
    simp only [swapped] at member
    split at member
    · simp at member
    · rename_i low
      exact low ((mem_upperHalf i).mpr (upper member))

/-- No thread of a priority below zero gives its core up while it could go on. -/
def SchedOp.KeepsBType (s : Taskman n c) (op : SchedOp n c) : Prop := op.May True s

theorem Fresh.run_sound {threads : Fin n → Thread} {current idle : Fin c → Fin n}
    (fresh : Fresh threads current idle)
    (run : Run (fun s op s' => SchedOp.May epochs s op ∧ op.exec affinity s = some s')
      (Taskman.start threads current idle) ops s) : Sound epochs s ∧ (Injective current →
      Injective idle → Alone s) := by
  have kept : (Sound epochs s ∧ IdleAwake s) ∧
      (Injective current → Injective idle → Alone s) := by
    refine run.preserves (P := fun s => (Sound epochs s ∧ IdleAwake s) ∧
      (Injective current → Injective idle → Alone s))
      ?_ ⟨fresh.sound epochs, fun cores idles => ⟨cores, idles⟩⟩
    rintro s op s' ⟨⟨sound, awake⟩, alone⟩ ⟨may, ran⟩
    obtain ⟨sound', awake', -, keeps⟩ := op.exec_sound sound awake may ran
    exact ⟨⟨sound', awake'⟩, fun cores idles => keeps (alone cores idles)⟩
  exact ⟨kept.1.1, kept.2⟩

theorem SchedOp.may_false (s : Taskman n c) (op : SchedOp n c) : op.May False s := by
  cases op <;> first | trivial | exact False.elim

/-- In every run where B-type threads give their cores up only to sleep or end, no queued thread is
out of reach of `PickNext`. -/
theorem queued_threads_not_stranded {threads : Fin n → Thread} {current idle : Fin c → Fin n}
    (fresh : Fresh threads current idle) {affinity : Bool} {ops : List (SchedOp n c)}
    (run : Run (fun s op s' => op.KeepsBType s ∧ op.exec affinity s = some s')
      (Taskman.start threads current idle) ops s) : NoneStranded s :=
  (fresh.run_sound run).1.noneStranded

/-- Every run keeps the queues well formed and idle threads on their own cores. -/
theorem scheduler_stays_sound {threads : Fin n → Thread} {current idle : Fin c → Fin n}
    (fresh : Fresh threads current idle) (affinity : Bool)
    (run : Run (fun s op s' => SchedOp.exec affinity s op = some s')
      (start threads current idle) ops s) : Sound False s :=
  (fresh.run_sound (run.mono fun s op _ ran => ⟨op.may_false s, ran⟩)).1

/-- A thread on the only core, another that has not begun, and the idle thread. -/
def threeThreads (priority : Int) : Fin 3 → Thread
  | 0 => { state := .running, priority }
  | 1 => { priority := 4 }
  | 2 => { priority := 12 }

theorem fresh_threeThreads (priority : Int) :
    Fresh (threeThreads priority) (fun _ : Fin 1 => 0) (fun _ => 2) where
  own := by decide
  expired := by intro t; fin_cases t <;> rfl
  reason := by intro t; fin_cases t <;> rfl
  awake := by intro t; fin_cases t <;> simp [threeThreads]

/-- Two cores with an idle thread each, and a thread that has not begun. -/
def twoCores : Fin 5 → Thread
  | 4 => { priority := 4 }
  | _ => { state := .running, priority := 3 }

theorem fresh_twoCores : Fresh twoCores ![0, 1] ![2, 3] := by
  refine ⟨by decide, ?_, ?_, ?_⟩ <;> intro t <;> fin_cases t <;> decide

/-- The new thread goes on the first core and off it again when its slice is used up; the other core
goes to sleep. -/
def passedOn (t : Fin n) (core other : Fin c) : List (SchedOp n c) :=
  [.append t, .yield core, .tick core, .sleep other]

theorem scheduler_stays_sound_passed_on :
    ∃ s, Run (fun s op s' => SchedOp.exec false s op = some s')
    (start twoCores ![0, 1] ![2, 3]) (passedOn 4 0 1) s ∧ s.current = ![0, 3] ∧
      Sound False s := by
  obtain ⟨s, run, moved⟩ : ∃ s, Run (fun s op s' => SchedOp.exec false s op = some s')
      (start twoCores ![0, 1] ![2, 3]) (passedOn 4 0 1) s ∧ s.current = ![0, 3] :=
      Run.exists_decide (by decide +kernel)
  exact ⟨s, run, moved, scheduler_stays_sound fresh_twoCores false run⟩

/-- The first thread gives the core up to the second. -/
def yieldOnce (t : Fin n) (core : Fin c) : List (SchedOp n c) := [.append t, .yield core]

theorem queued_threads_not_stranded_yield :
    ∃ s : Taskman 3 1, Fresh (threeThreads 3) (fun _ : Fin 1 => 0) (fun _ => 2) ∧
    Run (fun s op s' => SchedOp.KeepsBType s op ∧ op.exec false s = some s')
      (Taskman.start (threeThreads 3) (fun _ => 0) (fun _ => 2)) (yieldOnce 1 0) s ∧
      NoneStranded s := by
  have ran : ((SchedOp.append 1).exec false
      (start (threeThreads 3) (fun _ : Fin 1 => 0) (fun _ => 2))).isSome = true := by decide +kernel
  obtain ⟨s₁, first⟩ := Option.isSome_iff_exists.mp ran
  cases first
  have ran' : ((SchedOp.yield 0).exec false (appendThread
      (start (threeThreads 3) (fun _ : Fin 1 => 0) (fun _ => 2)) 1)).isSome =
      true := by decide +kernel
  obtain ⟨s₂, second⟩ := Option.isSome_iff_exists.mp ran'
  have run : Run (fun s op s' => SchedOp.KeepsBType s op ∧ op.exec false s = some s')
      (start (threeThreads 3) (fun _ : Fin 1 => 0) (fun _ => 2)) (yieldOnce 1 0) s₂ := by
    refine .cons ⟨trivial, rfl⟩ (.cons ⟨fun _ _ _ => ?_, second⟩ (.nil _))
    decide +kernel
  exact ⟨s₂, fresh_threeThreads 3, run,
    queued_threads_not_stranded (fresh_threeThreads 3) run⟩

instance (s : Taskman n c) (k : QueueKey) (t : Fin n) : Decidable (t ∈ members s k) :=
  decidable_of_iff ((members s k).contains t = true) List.contains_iff_mem

instance (s : Taskman n c) (array : QueueArray) (t : Fin n) : Decidable (Queued s array t) := by
  unfold Queued
  infer_instance

instance (s : Taskman n c) : Decidable (EpochOver s) := by
  unfold EpochOver
  infer_instance

instance (s : Taskman n c) (t : Fin n) : Decidable (Inspected s t) :=
  match swap : epochSwap s with
  | none => isFalse (by rintro ⟨s', is, -⟩; simp [swap] at is)
  | some s' =>
    decidable_of_iff ((setBits (s'.bitmap .priority)).any fun i =>
      (members s' (.priority, i)).contains t) (by unfold Inspected; simp [swap])

/-- A B-type thread gives the core up and is in an expired queue that no swap takes up. -/
theorem bType_yield_stranded :
    ∃ s : Taskman 3 1, Fresh (threeThreads (-1)) (fun _ : Fin 1 => 0) (fun _ => 2) ∧
    Run (fun s op s' => SchedOp.exec false s op = some s')
      (Taskman.start (threeThreads (-1)) (fun _ => 0) (fun _ => 2)) (yieldOnce 1 0) s ∧
    (s.threads 0).state = .ready ∧ Queued s .expired 0 ∧ EpochOver s ∧ ¬ Inspected s 0 := by
  have ran : ((yieldOnce 1 0).foldlM (SchedOp.exec false)
      (start (threeThreads (-1)) (fun _ : Fin 1 => 0) (fun _ => 2))).any (fun s =>
        decide ((s.threads 0).state = .ready ∧ Queued s .expired 0 ∧ EpochOver s ∧
            ¬ Inspected s 0)) = true := by
    decide +kernel
  obtain ⟨s, run, holds⟩ := Run.exists_of_any ran
  exact ⟨s, fresh_threeThreads (-1), run, of_decide_eq_true holds⟩

/-! ## The choice -/

/-- A thread that `PickNext` takes on the core. -/
def mayRun (affinity : Bool) (s : Taskman n c) (core : Fin c) (t : Fin n) : Bool :=
  eligible s core t && runnableHere affinity s core t

/-- The threads of a level, those of the running epoch first. -/
def level (s : Taskman n c) (i : Fin 32) : List (Fin n) :=
  members s (.priority, i) ++ members s (.expired, i)

/-- The first thread that may run, of the highest level that has one. -/
def best (affinity : Bool) (s : Taskman n c) (core : Fin c) : Option (Fin n) :=
  ((List.finRange 32).flatMap (level s)).find? (mayRun affinity s core)

/-- The threads of a level that `PickNext` looks at, which begins with a swap if no A-type thread is
active. -/
def reached (s : Taskman n c) (i : Fin 32) : List (Fin n) :=
  if SwapDue s ∧ 16 ≤ i.val then members s (.expired, i) else members s (.priority, i)

/-- The threads of a level that stay in the expired queue. -/
def leftExpired (s : Taskman n c) (i : Fin 32) : List (Fin n) :=
  if SwapDue s ∧ 16 ≤ i.val then [] else members s (.expired, i)

/-- A thread that may run and stays in an expired queue comes after one that `PickNext` looks at and
that may run, or it is of A type, none of the others may run and one of them only for its
affinity. -/
def ComesAfter (affinity : Bool) (s : Taskman n c) (core : Fin c) : Prop :=
  ∀ j, ∀ x ∈ leftExpired s j, mayRun affinity s core x = true →
    (∃ i ≤ j, ∃ t ∈ reached s i, mayRun affinity s core t = true) ∨
    16 ≤ j.val ∧ (∀ i, ∀ t ∈ reached s i, mayRun affinity s core t = false) ∧
      ∃ i, ∃ t ∈ reached s i, eligible s core t = true

/-- The search through the levels finds the first of the least level that has one. -/
theorem find_levels_eq_some {queue : Fin 32 → List (Fin n)} {p : Fin n → Bool} :
    ((List.finRange 32).flatMap queue).find? p = some t ↔
      ∃ i, (queue i).find? p = some t ∧ ∀ j < i, ∀ x ∈ queue j, p x = false := by
  have sorted := List.pairwise_lt_finRange 32
  rw [List.find?_flatMap, List.findSome?_eq_some_iff]
  constructor
  · rintro ⟨before, i, after, split, found, none⟩
    refine ⟨i, found, fun j less x member => ?_⟩
    have place := List.mem_finRange j
    rw [split] at sorted place
    rcases List.mem_append.mp place with earlier | later
    · exact Bool.not_eq_true _ ▸ List.find?_eq_none.mp (none j earlier) x member
    · have above := (List.pairwise_cons.mp (List.pairwise_append.mp sorted).2.1).1
      grind
  · rintro ⟨i, found, none⟩
    obtain ⟨before, after, split⟩ := List.append_of_mem (List.mem_finRange i)
    refine ⟨before, i, after, split, found,
      fun j earlier => List.find?_eq_none.mpr fun x member => ?_⟩
    rw [split] at sorted
    have less := (List.pairwise_append.mp sorted).2.2 j earlier i (.head _)
    simp [none j less x member]

theorem find_levels_eq_none {queue : Fin 32 → List (Fin n)} {p : Fin n → Bool} :
    ((List.finRange 32).flatMap queue).find? p = none ↔
      ∀ i, ∀ x ∈ queue i, p x = false := by
  simp only [List.find?_eq_none, List.mem_flatMap, List.mem_finRange, true_and, Bool.not_eq_true]
  constructor
  · intro none i x member
    exact none x ⟨i, member⟩
  · rintro none x ⟨i, member⟩
    exact none i x member

theorem setBits_flatMap (bitmap : BitVec 32) (queue : Fin 32 → List (Fin n)) :
    (setBits bitmap).flatMap queue =
      (List.finRange 32).flatMap fun i => if bitmap.getLsbD i.val then queue i else [] := by
  unfold setBits
  induction List.finRange 32 with
  | nil => rfl
  | cons i indices ih =>
    rw [List.filter_cons, List.flatMap_cons, ← ih]
    split <;> rfl

section Pick

variable {s : Taskman n c} {q : QueueKey → List (Fin n)} (ok : QueuesOk s q)

include ok

theorem QueuesOk.setBits_flatMap (array : QueueArray) :
    (setBits (s.bitmap array)).flatMap (fun i => q (array, i)) =
      (List.finRange 32).flatMap fun i => q (array, i) := by
  rw [Sched.setBits_flatMap]
  congr 1
  funext i
  split
  · rfl
  · rename_i clear
    by_contra filled
    exact clear ((ok.bits array i).mpr fun empty => filled empty.symm)

theorem QueuesOk.upper_flatMap :
    (setBits (s.bitmap .expired &&& upperMask)).flatMap (fun i => q (.expired, i)) =
      (List.finRange 32).flatMap fun i => if 16 ≤ i.val then q (.expired, i) else [] := by
  rw [Sched.setBits_flatMap]
  congr 1
  funext i
  have bits := ok.bits .expired i
  rw [BitVec.getLsbD_and, getLsbD_upperMask]
  grind

/-- What `PickNext` returns: the first active thread that may run, or the first expired one of A
type if an active one may not for its affinity. -/
theorem QueuesOk.pickFrom_eq (affinity : Bool) (core : Fin c) :
    (Sched.pickFrom affinity core s).map Prod.fst =
      some
      ((((List.finRange 32).flatMap fun i => q (.priority, i)).find? (mayRun affinity s core)).or
        (if ∃ i, ∃ t ∈ q (.priority, i), eligible s core t = true then
          ((List.finRange 32).flatMap fun i => if 16 ≤ i.val then q (.expired, i) else []).find?
            (mayRun affinity s core)
        else none)) := by
  have picks : ∀ choice, (picked s choice).1 = choice := by
    intro choice
    cases choice <;> rfl
  unfold Sched.pickFrom
  simp only [scanQueues_eq ok.rep, Option.bind_some, ok.setBits_flatMap, ok.upper_flatMap]
  cases found : ((List.finRange 32).flatMap fun i => q (.priority, i)).find?
    (fun t => eligible s core t && runnableHere affinity s core t) with
  | some t =>
    change Option.map Prod.fst (some (picked s (some t))) =
      some (Option.or (List.find? (mayRun affinity s core) _) _)
    rw [show List.find? (mayRun affinity s core) _ = some t from found]
    rfl
  | none =>
    have skipped : (((List.finRange 32).flatMap fun i => q (.priority, i)).find?
        (fun t => eligible s core t && !runnableHere affinity s core t)).isSome = true ↔
          ∃ i, ∃ t ∈ q (.priority, i), eligible s core t = true := by
      rw [find_levels_eq_none] at found
      simp only [List.find?_isSome, List.mem_flatMap, List.mem_finRange, true_and]
      grind
    rw [show List.find? (mayRun affinity s core) _ = none from found, Option.none_or]
    by_cases any : ∃ i, ∃ t ∈ q (.priority, i), eligible s core t = true
    · rw [if_pos any]
      dsimp only
      split
      · exact congrArg some (picks _)
      · rename_i off
        have clear : s.bitmap .expired &&& upperMask = 0 := by
          by_contra set
          exact off ⟨skipped.mpr any, set⟩
        rw [← ok.upper_flatMap, clear]
        rfl
    · rw [if_neg any]
      exact congrArg (Option.map Prod.fst) (if_neg fun both => any (skipped.mp both.1))

/-- The search finds the best thread just if each one that stays behind comes after what is
found. -/
theorem QueuesOk.first_iff {p e : Fin n → Bool} :
    (((List.finRange 32).flatMap fun i => q (.priority, i)).find? p).or
        (if ∃ i, ∃ t ∈ q (.priority, i), e t = true then
          ((List.finRange 32).flatMap fun i => if 16 ≤ i.val then q (.expired, i) else []).find? p
        else none) =
      ((List.finRange 32).flatMap fun i => q (.priority, i) ++ q (.expired, i)).find? p ↔
    ∀ j, ∀ x ∈ q (.expired, j), p x = true →
      (∃ i ≤ j, ∃ t ∈ q (.priority, i), p t = true) ∨
      16 ≤ j.val ∧ (∀ i, ∀ t ∈ q (.priority, i), p t = false) ∧
      ∃ i, ∃ t ∈ q (.priority, i), e t = true := by
  have apart := ok.rep.apart
  cases found : ((List.finRange 32).flatMap fun i => q (.priority, i)).find? p with
  | some t =>
    obtain ⟨i, first, none⟩ := find_levels_eq_some.mp found
    have member := List.mem_of_find?_eq_some first
    have able := List.find?_some first
    rw [Option.some_or, eq_comm, find_levels_eq_some]
    constructor
    · rintro ⟨i', first', none'⟩ j x behind runs
      have same : i = i' := by
        rcases List.mem_append.mp (List.mem_of_find?_eq_some first') with here | here
        · exact congrArg Prod.snd (apart _ _ t member here)
        · cases congrArg Prod.fst (apart _ _ t member here)
      refine .inl ⟨i, ?_, t, member, able⟩
      by_contra above
      have stays := none' j (same ▸ not_le.mp above) x (List.mem_append_right _ behind)
      rw [runs] at stays
      cases stays
    · intro after
      refine ⟨i, by rw [List.find?_append, first, Option.some_or], fun j less x there => ?_⟩
      rcases List.mem_append.mp there with active | behind
      · exact none j less x active
      · by_contra runs
        rcases after j x behind (Bool.eq_true_of_not_eq_false runs) with
          ⟨i', upTo, t', member', able'⟩ | ⟨-, none', -⟩
        · rw [none i' (upTo.trans_lt less) t' member'] at able'
          cases able'
        · rw [none' i t member] at able
          cases able
  | none =>
    have none := find_levels_eq_none.mp found
    have nowhere : ∀ j, ¬ ∃ i ≤ j, ∃ t ∈ q (.priority, i), p t = true := by
      rintro j ⟨i, -, t, member, able⟩
      rw [none i t member] at able
      cases able
    have expired : ∀ i, ∀ x ∈ q (.priority, i) ++ q (.expired, i), p x = true →
        x ∈ q (.expired, i) := by
      intro i x member runs
      refine (List.mem_append.mp member).resolve_left fun active => ?_
      rw [none i x active] at runs
      cases runs
    simp only [nowhere, false_or, Option.none_or]
    split
    · rename_i any
      constructor
      · intro same j x member runs
        refine ⟨?_, none, any⟩
        cases first :
            ((List.finRange 32).flatMap fun i => q (.priority, i) ++ q (.expired, i)).find? p with
        | none =>
          rw [find_levels_eq_none.mp first j x (List.mem_append_right _ member)] at runs
          cases runs
        | some t =>
          obtain ⟨i, found, before⟩ := find_levels_eq_some.mp first
          obtain ⟨i', found', -⟩ := find_levels_eq_some.mp (same.trans first)
          have here := expired i t (List.mem_of_find?_eq_some found) (List.find?_some found)
          have here' := List.mem_of_find?_eq_some found'
          have upTo : ¬ j < i := fun less => by
            rw [before j less x (List.mem_append_right _ member)] at runs
            cases runs
          split at here'
          · rename_i high
            have is := congrArg Prod.snd (apart _ _ t here here')
            dsimp only at is
            omega
          · cases here'
      · intro high
        rw [List.find?_flatMap, List.find?_flatMap]
        congr 1
        funext i
        have idle : (q (.priority, i)).find? p = Option.none :=
          List.find?_eq_none.mpr fun x member => by simp [none i x member]
        rw [List.find?_append, idle, Option.none_or]
        split
        · rfl
        · rename_i low
          exact (List.find?_eq_none.mpr fun x member runs => low (high i x member runs).1).symm
    · rename_i none'
      rw [eq_comm, find_levels_eq_none]
      constructor
      · intro idle j x member runs
        rw [idle j x (List.mem_append_right _ member)] at runs
        cases runs
      · intro high i x member
        by_contra runs
        have runs := Bool.eq_true_of_not_eq_false runs
        exact none' (high i x (expired i x member runs) runs).2.2

end Pick

theorem Swapped.mayRun {s s' : Taskman n c} (swap : Swapped s s') (affinity : Bool) (core : Fin c) :
    eligible s' core = eligible s core ∧
      Sched.mayRun affinity s' core = Sched.mayRun affinity s core := by
  have same : ∀ t, (s'.threads t).justSchedule = (s.threads t).justSchedule ∧
      (s'.threads t).state = (s.threads t).state ∧
          (s'.threads t).ringCoreid = (s.threads t).ringCoreid := by
    intro t
    rcases swap.threads t with is | is <;> simp [is]
  have eligible : eligible s' core = eligible s core := by
    funext t
    simp only [Sched.eligible, same, swap.current]
  refine ⟨eligible, ?_⟩
  funext t
  simp only [Sched.mayRun, eligible, runnableHere, same]

/-- `PickNext` takes the first thread that may run of the highest level that has one, and none only
where none may, just if each such thread that stays in an expired queue comes after what it finds.
No thread is the current one of two cores, and `PickNext` on one core never returns the current
thread of another. -/
theorem pickNext_best (affinity : Bool) :
    (∀ s : Taskman n c, WellFormed s → ∀ core,
      (pickNext affinity core s).map Prod.fst = some (best affinity s core) ↔
      ComesAfter affinity s core) ∧
    ∀ (threads : Fin n → Thread) (current idle : Fin c → Fin n),
      Fresh threads current idle →
      Injective current → Injective idle → ∀ ops s,
        Run (fun s op s' => SchedOp.exec affinity s op = some s')
        (Taskman.start threads current idle) ops s →
          Injective s.current ∧
            ∀ core other, other ≠ core → (pickNext affinity other s).map Prod.fst ≠
            some (some (s.current core)) := by
  refine ⟨?_, ?_⟩
  · rintro s ⟨q, ok⟩ core
    obtain ⟨s₁, swap, ok₁, swapped⟩ := ok.epochSwap
    obtain ⟨eligible, mayRun⟩ := swapped.mayRun affinity core
    have active : reached s = fun i => afterSwap s q (.priority, i) := by
      funext i
      simp only [reached, afterSwap, members_eq ok, ← mem_upperHalf]
      by_cases due : SwapDue s <;> simp [due, Sched.swapped]
    have behind : leftExpired s = fun i => afterSwap s q (.expired, i) := by
      funext i
      simp only [leftExpired, afterSwap, members_eq ok, ← mem_upperHalf]
      by_cases due : SwapDue s <;> simp [due, Sched.swapped]
    have levels : level s = fun i =>
        afterSwap s q (.priority, i) ++ afterSwap s q (.expired, i) := by
      funext i
      simp only [level, members_eq ok, afterSwap]
      split
      · rename_i due
        simp only [Sched.swapped]
        split
        · rename_i high
          rw [ok.upper_empty due.1 high, List.append_nil, List.nil_append]
        · rfl
      · rfl
    unfold pickNext best ComesAfter
    rw [swap, Option.bind_some, ok₁.pickFrom_eq, eligible, mayRun, levels, active, behind,
      Option.some_inj]
    exact ok₁.first_iff
  · intro threads current idle fresh cores idles ops s run
    obtain ⟨sound, alone⟩ :=
      fresh.run_sound (run.mono fun s op _ ran => ⟨op.may_false s, ran⟩)
    refine ⟨(alone cores idles).1, fun core other apart => ?_⟩
    obtain ⟨q, inv⟩ := sound.sane
    obtain ⟨s₁, swap, ok₁, swapped⟩ := inv.queues.epochSwap
    obtain ⟨choice, s₂, pick, -, able⟩ := ok₁.pickFrom affinity other
    unfold pickNext
    rw [swap, Option.bind_some, pick]
    rintro ⟨⟩
    have eligible := (able _ rfl).2
    simp only [Sched.eligible, Bool.and_eq_true, Bool.not_eq_true',
      decide_eq_false_iff_not] at eligible
    exact eligible.2 ⟨core, apart.symm, by rw [swapped.current]⟩

/-- Ready threads of two levels. -/
def readyPair (t : Fin 2) : Taskman 2 1 :=
  .start ![{ state := .ready, priority := 4 }, { state := .ready, priority := 8 }]
    (fun _ => t) fun _ => t

/-- The second waits for the next epoch. -/
def midEpoch (t other : Fin 2) : Taskman 2 1 :=
  enqueueExpired (enqueueReady (readyPair t) t) other

theorem pickNext_best_mid_epoch :
    (pickNext false 0 (midEpoch 0 1)).map Prod.fst = some (best false (midEpoch 0 1) 0) ∧
      best false (midEpoch 0 1) 0 = some 0 ∧
    ∃ s, Run (fun s op s' => SchedOp.exec false s op = some s')
      (Taskman.start twoCores ![0, 1] ![2, 3]) (passedOn 4 0 1) s ∧
      Injective s.current := by
  have first : WellFormed (enqueueReady (readyPair 0) 0) :=
    (wellFormed_enqueue ⟨_, QueuesOk.start ..⟩ 0).mpr (by decide +kernel)
  have wf : WellFormed (enqueueExpired (enqueueReady (readyPair 0) 0) 1) :=
    (wellFormed_enqueue first 1).mpr (by decide +kernel)
  have after : ComesAfter false (midEpoch 0 1) 0 := by
    have behind : ∀ j, ∀ x ∈ leftExpired (midEpoch 0 1) j, 20 ≤ j := by decide +kernel
    intro j x member _
    exact .inl ⟨20, behind j x member, 0, by decide +kernel, by decide +kernel⟩
  obtain ⟨s, run, -⟩ : ∃ s, Run (fun s op s' => SchedOp.exec false s op = some s')
      (Taskman.start twoCores ![0, 1] ![2, 3]) (passedOn 4 0 1) s ∧ s.current = ![0, 3] :=
    Run.exists_decide (by decide +kernel)
  exact ⟨((pickNext_best false).1 (midEpoch 0 1) wf 0).mpr after, by decide +kernel, s, run,
    ((pickNext_best false).2 _ _ _ fresh_twoCores (by decide) (by decide) _ s run).1⟩

/-- The B-type thread in the expired queue may run, and `PickNext` finds none. -/
theorem pickNext_idles : ∃ s, Run (fun s op s' => SchedOp.exec false s op = some s')
    (Taskman.start (threeThreads (-1)) (fun _ : Fin 1 => 0) (fun _ => 2))
    (yieldOnce 1 0 ++ [.tick 0]) s ∧ WellFormed s ∧
      best false s 0 = some 0 ∧ (pickNext false 0 s).map Prod.fst = some none := by
  obtain ⟨s, run, found⟩ : ∃ s, Run (fun s op s' => SchedOp.exec false s op = some s')
      (Taskman.start (threeThreads (-1)) (fun _ : Fin 1 => 0) (fun _ => 2))
      (yieldOnce 1 0 ++ [.tick 0]) s ∧
        (best false s 0 = some 0 ∧ (pickNext false 0 s).map Prod.fst = some none) :=
    Run.exists_decide (by decide +kernel)
  obtain ⟨q, inv⟩ :=
    ((fresh_threeThreads (-1)).run_sound
      (run.mono fun s op _ ran => ⟨op.may_false s, ran⟩)).1.sane
  exact ⟨s, run, ⟨q, inv.queues⟩, found⟩

end Mecocoa.Sched
