import Mathlib.Data.List.ReduceOption
import Mecocoa.Lib.Run

/-! # Device events

The events that wait for a thread.  They are held in a queue of limited length and, when it is
full, in overflow slots; events of one source are merged.
-/

namespace Mecocoa.Ipc

open List Nat

open Lib (Run)

abbrev DeviceEventFlags := BitVec 16

def deviceEventFlagNone : DeviceEventFlags := 0

def deviceEventFlagCoalesced : DeviceEventFlags := 2

def deviceEventFlagOverflow : DeviceEventFlags := 4

def maxCount : Nat := 0xFFFFFFFF

structure DeviceEvent where
  kind : BitVec 16
  flags : DeviceEventFlags
  deviceHandle : BitVec 32
  source : BitVec 32
  count : BitVec 32
  generation : BitVec 32
  sequence : BitVec 64
  deriving DecidableEq

def sameDeviceEventSource (left right : DeviceEvent) : Bool :=
  left.kind = right.kind ∧ left.deviceHandle = right.deviceHandle ∧
    left.source = right.source ∧ left.generation = right.generation

def mergeDeviceEvent (target event : DeviceEvent) (extraFlags : DeviceEventFlags) : DeviceEvent :=
  let total := target.count.toNat + event.count.toNat
  let flags := target.flags ||| (event.flags ||| deviceEventFlagCoalesced ||| extraFlags)
  { target with
    count := if total > maxCount then BitVec.ofNat 32 maxCount else BitVec.ofNat 32 total
    sequence := event.sequence
    flags := if total > maxCount then flags ||| deviceEventFlagOverflow else flags }

def addFlags (event : DeviceEvent) (flags : DeviceEventFlags) : DeviceEvent :=
  { event with flags := event.flags ||| flags }

/-- `overflow` has an event where `overflow_used` is set. -/
structure DeviceEventQueue where
  pending : List DeviceEvent
  overflow : List (Option DeviceEvent)

def deviceEventCapacity : Nat := 8

def deviceEventOverflowCapacity : Nat := deviceEventCapacity * 4

namespace DeviceEventQueue

def start : DeviceEventQueue := ⟨[], List.replicate deviceEventOverflowCapacity none⟩

/-- The queue takes an event as long as it holds fewer than `limit`. -/
def enqueue (limit : Nat) (pending : List DeviceEvent) (event : DeviceEvent) :
    Option (List DeviceEvent) :=
  if pending.length < limit then some (pending ++ [event]) else none

/-- Take the pending events from the front one by one and put them back, the first one of the
source merged with the event.  The flag tells whether there was one. -/
def coalesce (limit : Nat) (event : DeviceEvent) :
    Nat → Bool → List DeviceEvent → List DeviceEvent × Option Bool
  | 0, coalesced, pending => (pending, some coalesced)
  | _ + 1, _, [] => ([], none)
  | k + 1, coalesced, first :: rest =>
    let merges := sameDeviceEventSource first event && !coalesced
    match enqueue limit rest (if merges then mergeDeviceEvent first event deviceEventFlagNone
        else first) with
    | none => (rest, none)
    | some pending => coalesce limit event k (coalesced || merges) pending

/-- Take the pending events from the front one by one and put back what becomes of them. -/
def cycle (limit : Nat) (f : DeviceEvent → Option DeviceEvent) :
    Nat → List DeviceEvent → List DeviceEvent
  | 0, pending => pending
  | _ + 1, [] => []
  | k + 1, first :: rest =>
    match f first with
    | none => cycle limit f k rest
    | some event => cycle limit f k ((enqueue limit rest event).getD rest)

def mergeSlot (event : DeviceEvent) :
    List (Option DeviceEvent) → Option (List (Option DeviceEvent))
  | [] => none
  | none :: slots => (mergeSlot event slots).map (none :: ·)
  | some held :: slots =>
    if sameDeviceEventSource held event then
      some (some (mergeDeviceEvent held event deviceEventFlagOverflow) :: slots)
    else (mergeSlot event slots).map (some held :: ·)

def fillSlot (event : DeviceEvent) :
    List (Option DeviceEvent) → Option (List (Option DeviceEvent))
  | [] => none
  | none :: slots => some (some (addFlags event deviceEventFlagOverflow) :: slots)
  | some held :: slots => (fillSlot event slots).map (some held :: ·)

def takeSlot : List (Option DeviceEvent) → Option (DeviceEvent × List (Option DeviceEvent))
  | [] => none
  | none :: slots => (takeSlot slots).map fun (event, slots) => (event, none :: slots)
  | some held :: slots => some (held, none :: slots)

def markOverflow (event : DeviceEvent) : DeviceEvent := addFlags event deviceEventFlagOverflow

def queueDeviceEvent (limit : Nat) (events : DeviceEventQueue) (event : DeviceEvent) :
    DeviceEventQueue × Bool :=
  match coalesce limit event events.pending.length false events.pending with
  | (pending, none) => ({ events with pending }, false)
  | (pending, some true) => ({ events with pending }, true)
  | (pending, some false) =>
    match enqueue limit pending event with
    | some pending => ({ events with pending }, true)
    | none =>
      match mergeSlot event events.overflow with
      | some overflow => ({ pending, overflow }, true)
      | none =>
        match fillSlot event events.overflow with
        | some overflow => ({ pending, overflow }, true)
        | none =>
          ({ pending := cycle limit (fun e => some (markOverflow e)) pending.length pending
             overflow := events.overflow.map (Option.map markOverflow) }, false)

def dequeueDeviceEvent (events : DeviceEventQueue) : Option (DeviceEvent × DeviceEventQueue) :=
  match events.pending with
  | event :: pending => some (event, { events with pending })
  | [] => (takeSlot events.overflow).map fun (event, overflow) => (event, { events with overflow })

def deviceEventCancel (limit : Nat) (events : DeviceEventQueue)
    (deviceHandle generation : BitVec 32) : DeviceEventQueue :=
  let keep := Option.guard fun e : DeviceEvent =>
    ¬ (e.deviceHandle = deviceHandle ∧ e.generation = generation)
  { pending := cycle limit keep events.pending.length events.pending
    overflow := events.overflow.map (Option.bind · keep) }

/-- The events in the order in which they are taken. -/
def stored (events : DeviceEventQueue) : List DeviceEvent :=
  events.pending ++ events.overflow.reduceOption

end DeviceEventQueue

/-! ## Sources -/

structure EventSource where
  kind : BitVec 16
  deviceHandle : BitVec 32
  source : BitVec 32
  generation : BitVec 32
  deriving DecidableEq

def DeviceEvent.origin (event : DeviceEvent) : EventSource :=
  ⟨event.kind, event.deviceHandle, event.source, event.generation⟩

def ofSource (k : EventSource) (events : List DeviceEvent) : List DeviceEvent :=
  events.filter (·.origin = k)

def otherSources (k : EventSource) (events : List DeviceEvent) : List DeviceEvent :=
  events.filter (·.origin ≠ k)

def totalCount (events : List DeviceEvent) : Nat := (events.map (·.count.toNat)).sum

theorem sameDeviceEventSource_iff (left right : DeviceEvent) :
    sameDeviceEventSource left right = true ↔ left.origin = right.origin := by
  simp [sameDeviceEventSource, DeviceEvent.origin]

@[simp] theorem origin_merge (target event : DeviceEvent) (flags : DeviceEventFlags) :
    (mergeDeviceEvent target event flags).origin = target.origin := rfl

@[simp] theorem origin_addFlags (event : DeviceEvent) (flags : DeviceEventFlags) :
    (addFlags event flags).origin = event.origin := rfl

@[simp] theorem count_addFlags (event : DeviceEvent) (flags : DeviceEventFlags) :
    (addFlags event flags).count = event.count := rfl

theorem addFlags_none (event : DeviceEvent) : addFlags event deviceEventFlagNone = event := by
  simp [addFlags, deviceEventFlagNone]

theorem ofSource_append (k : EventSource) (l r : List DeviceEvent) :
    ofSource k (l ++ r) = ofSource k l ++ ofSource k r :=
  filter_append ..

theorem ofSource_cons (k : EventSource) (e : DeviceEvent) (l : List DeviceEvent) :
    ofSource k (e :: l) = if e.origin = k then e :: ofSource k l else ofSource k l := by
  simp [ofSource, filter_cons]

theorem ofSource_eq_nil (absent : ∀ e ∈ events, e.origin ≠ k) :
    ofSource k events = [] := by
  simpa [ofSource] using absent

theorem ofSource_markOverflow (k : EventSource) (events : List DeviceEvent) :
    ofSource k (events.map DeviceEventQueue.markOverflow) =
      (ofSource k events).map DeviceEventQueue.markOverflow :=
  filter_map

@[simp] theorem totalCount_nil : totalCount [] = 0 := rfl

@[simp] theorem totalCount_cons (e : DeviceEvent) (l : List DeviceEvent) :
    totalCount (e :: l) = e.count.toNat + totalCount l := by
  simp [totalCount]

theorem totalCount_append (l r : List DeviceEvent) :
    totalCount (l ++ r) = totalCount l + totalCount r := by
  simp [totalCount]

/-! ## What a call does -/

/-- What a call with the event does to the stored events, and whether it is accepted.  An event
that is not merged is the only one of its source, if the call is tidy. -/
inductive Queued (tidy : Prop) (event : DeviceEvent) :
    List DeviceEvent → List DeviceEvent → Bool → Prop where
  | merge {l r : List DeviceEvent} {held : DeviceEvent} (extra : DeviceEventFlags)
    (same : held.origin = event.origin) :
      Queued tidy event (l ++ held :: r) (l ++ mergeDeviceEvent held event extra :: r) true
  | insert {l r : List DeviceEvent} (extra : DeviceEventFlags)
      (absent : tidy → ∀ e ∈ l ++ r, e.origin ≠ event.origin) :
      Queued tidy event (l ++ r) (l ++ addFlags event extra :: r) true
  | refuse {l : List DeviceEvent} : Queued tidy event l (l.map DeviceEventQueue.markOverflow) false

namespace DeviceEventQueue

variable (event : DeviceEvent)

theorem enqueue_room {pending} (room : pending.length < limit) (e : DeviceEvent) :
    enqueue limit pending e = some (pending ++ [e]) := if_pos room

/-- The events of the rest of the loop are put back as they are. -/
theorem coalesce_true : ∀ (todo done : List DeviceEvent), (todo ++ done).length ≤ limit →
    coalesce limit event todo.length true (todo ++ done) = (done ++ todo, some true) := by
  intro todo
  induction todo with
  | nil => simp [coalesce]
  | cons first todo ih =>
    intro done room
    rw [cons_append, length_cons] at room
    have rest := ih (done ++ [first]) (by simpa [add_assoc] using room)
    simp only [length_cons, cons_append, coalesce, Bool.not_true, Bool.and_false,
      Bool.false_eq_true, if_false,
      enqueue_room room, Bool.or_false, append_assoc]
    simpa using rest

/-- The loop merges the event into the first one of its source. -/
theorem coalesce_false : ∀ (todo done : List DeviceEvent), (todo ++ done).length ≤ limit →
    (∃ l held r, todo = l ++ held :: r ∧ held.origin = event.origin ∧
      coalesce limit event todo.length false (todo ++ done) =
        (done ++ (l ++ mergeDeviceEvent held event deviceEventFlagNone :: r), some true)) ∨
      (∀ e ∈ todo, e.origin ≠ event.origin) ∧
        coalesce limit event todo.length false (todo ++ done) = (done ++ todo, some false) := by
  intro todo
  induction todo with
  | nil => exact fun _ _ => .inr ⟨by simp, by simp [coalesce]⟩
  | cons first todo ih =>
    intro done room
    rw [cons_append, length_cons] at room
    cases same : sameDeviceEventSource first event with
    | true =>
      refine .inl ⟨[], first, todo, rfl, (sameDeviceEventSource_iff first event).mp same, ?_⟩
      have rest :=
        coalesce_true event todo (done ++ [mergeDeviceEvent first event deviceEventFlagNone])
        (by simpa [add_assoc] using room)
      simp only [length_cons, cons_append, coalesce, same, Bool.not_false, Bool.and_true, if_true,
        enqueue_room room, Bool.or_true, append_assoc, nil_append]
      simpa using rest
    | false =>
      have other : first.origin ≠ event.origin := by
        rw [ne_eq, ← sameDeviceEventSource_iff, same]
        simp
      have step : coalesce limit event (first :: todo).length false (first :: todo ++ done) =
          coalesce limit event todo.length false (todo ++ (done ++ [first])) := by
        simp only [length_cons, cons_append, coalesce, same, Bool.not_false, Bool.and_true,
          Bool.false_eq_true,
          if_false, enqueue_room room, Bool.or_false, append_assoc]
      rw [step]
      cases ih (done ++ [first]) (by simpa [add_assoc] using room) with
      | inl merged =>
        obtain ⟨l, held, r, is, own, eq⟩ := merged
        exact .inl ⟨first :: l, held, r, by rw [is]; rfl, own, by simpa using eq⟩
      | inr none =>
        refine .inr ⟨?_, by simpa using none.2⟩
        simpa using ⟨other, none.1⟩

theorem cycle_eq (f : DeviceEvent → Option DeviceEvent) : ∀ (todo done : List DeviceEvent),
    (todo ++ done).length ≤ limit → cycle limit f todo.length (todo ++ done) =
      done ++ todo.filterMap f := by
  intro todo
  induction todo with
  | nil => simp [cycle]
  | cons first todo ih =>
    intro done room
    rw [cons_append, length_cons] at room
    simp only [length_cons, cons_append, cycle]
    cases is : f first with
    | none => simpa [is] using ih done (le_of_succ_le room)
    | some e =>
      have rest := ih (done ++ [e]) (by simpa [add_assoc] using room)
      simpa [enqueue_room room, is] using rest

theorem mergeSlot_cases : ∀ slots : List (Option DeviceEvent),
    (∃ l held r slots', mergeSlot event slots = some slots' ∧
      slots.reduceOption = l ++ held :: r ∧
      held.origin = event.origin ∧
        slots'.reduceOption = l ++ mergeDeviceEvent held event deviceEventFlagOverflow :: r) ∨
      mergeSlot event slots = none ∧ ∀ e ∈ slots.reduceOption, e.origin ≠ event.origin := by
  intro slots
  induction slots with
  | nil => exact .inr ⟨rfl, by simp⟩
  | cons slot slots ih =>
    cases slot with
    | none =>
      cases ih with
      | inl merged =>
        obtain ⟨l, held, r, slots', eq, is, own, after⟩ := merged
        exact .inl ⟨l, held, r, none :: slots', by simp [mergeSlot, eq], by simpa using is,
          own, by simpa using after⟩
      | inr absent => exact .inr ⟨by simp [mergeSlot, absent.1], by simpa using absent.2⟩
    | some held =>
      cases same : sameDeviceEventSource held event with
      | true =>
        exact .inl ⟨[], held, slots.reduceOption, _, by rw [mergeSlot, if_pos same], by simp,
          (sameDeviceEventSource_iff held event).mp same, by simp⟩
      | false =>
        have other : held.origin ≠ event.origin := by
          rw [ne_eq, ← sameDeviceEventSource_iff, same]
          simp
        cases ih with
        | inl merged =>
          obtain ⟨l, held', r, slots', eq, is, own, after⟩ := merged
          exact .inl
            ⟨held :: l, held', r,
            some held :: slots', by simp [mergeSlot, same, eq], by simp [is], own,
            by simp [after]⟩
        | inr absent =>
          exact .inr ⟨by simp [mergeSlot, same, absent.1], by simpa using ⟨other, absent.2⟩⟩

theorem fillSlot_cases :
    ∀ {slots slots' : List (Option DeviceEvent)}, fillSlot event slots = some slots' →
    ∃ l r, slots.reduceOption = l ++ r ∧
      slots'.reduceOption = l ++ addFlags event deviceEventFlagOverflow :: r := by
  intro slots
  induction slots with
  | nil => exact nofun
  | cons slot slots ih =>
    intro slots' filled
    cases slot with
    | none =>
      cases filled
      exact ⟨[], slots.reduceOption, by simp, by simp⟩
    | some held =>
      obtain ⟨rest, eq, is⟩ := Option.map_eq_some_iff.mp filled
      cases is
      obtain ⟨l, r, before, after⟩ := ih eq
      exact ⟨held :: l, r, by simp [before], by simp [after]⟩

theorem takeSlot_cases : ∀ {slots slots' : List (Option DeviceEvent)} {e : DeviceEvent},
    takeSlot slots = some (e, slots') → slots.reduceOption = e :: slots'.reduceOption := by
  intro slots
  induction slots with
  | nil => exact nofun
  | cons slot slots ih =>
    intro slots' e taken
    cases slot with
    | none =>
      obtain ⟨⟨e', rest⟩, eq, is⟩ := Option.map_eq_some_iff.mp taken
      cases is
      simpa using ih eq
    | some held =>
      cases taken
      simp

theorem reduceOption_bind (f : DeviceEvent → Option DeviceEvent)
    (slots : List (Option DeviceEvent)) :
    (slots.map (Option.bind · f)).reduceOption = slots.reduceOption.filterMap f := by
  simp [reduceOption, filterMap_map, filterMap_filterMap]

/-- An event is put into the queue only when there is no earlier one of its source in the slots. -/
def TidyFor (limit : Nat) (events : DeviceEventQueue) (event : DeviceEvent) : Prop :=
  (∃ e ∈ events.overflow.reduceOption, e.origin = event.origin) →
  limit ≤ events.pending.length

theorem queueDeviceEvent_cases (room : events.pending.length ≤ limit) (event : DeviceEvent) :
    Queued
      (TidyFor limit events event) event events.stored
      (queueDeviceEvent limit events event).1.stored
        (queueDeviceEvent limit events event).2 ∧
        (queueDeviceEvent limit events event).1.pending.length ≤ limit := by
  have loop := coalesce_false event events.pending [] (by simpa using room)
  simp only [append_nil, nil_append] at loop
  unfold queueDeviceEvent
  rcases loop with ⟨l, held, r, is, own, eq⟩ | ⟨absent, eq⟩
  · rw [eq]
    dsimp only [stored]
    refine ⟨?_, by rw [is] at room; simpa using room⟩
    rw [is]
    simpa using Queued.merge (l := l) (r := r ++ events.overflow.reduceOption) deviceEventFlagNone
      own
  rw [eq]
  dsimp only
  by_cases full : events.pending.length < limit
  · rw [enqueue_room full]
    dsimp only [stored]
    refine ⟨?_, by simpa using full⟩
    have alone : TidyFor limit events event →
      ∀ e ∈ events.pending ++ events.overflow.reduceOption,
        e.origin ≠ event.origin := by
      intro tidy e there own
      cases mem_append.mp there with
      | inl queued => exact absent e queued own
      | inr slot => exact absurd (tidy ⟨e, slot, own⟩) (not_le.mpr full)
    simpa [addFlags_none] using Queued.insert deviceEventFlagNone alone
  rw [enqueue, if_neg full]
  rcases mergeSlot_cases event events.overflow with
    ⟨l, held, r, slots, eq, is, own, after⟩ | ⟨eq, none⟩
  · rw [eq]
    dsimp only [stored]
    refine ⟨?_, room⟩
    rw [is, after, ← append_assoc, ← append_assoc]
    exact .merge deviceEventFlagOverflow own
  rw [eq]
  cases filled : fillSlot event events.overflow with
  | some slots =>
    dsimp only [stored]
    refine ⟨?_, room⟩
    obtain ⟨l, r, is, after⟩ := fillSlot_cases event filled
    rw [is, after, ← append_assoc, ← append_assoc]
    refine .insert deviceEventFlagOverflow fun _ e there own => ?_
    rw [append_assoc, ← is] at there
    cases mem_append.mp there with
    | inl queued => exact absent e queued own
    | inr slot => exact none e slot own
  | none =>
    dsimp only [stored]
    have marked := cycle_eq (fun e => some (markOverflow e)) events.pending [] (by simpa using room)
    have slots := reduceOption_bind (fun e => some (markOverflow e)) events.overflow
    simp only [append_nil, nil_append, filterMap_eq_map'] at marked slots
    rw [marked, show Option.map markOverflow = (Option.bind · fun e => some (markOverflow e)) from
      funext fun _ => Option.map_eq_bind, slots, ← map_append]
    exact ⟨.refuse, by simpa using room⟩

theorem dequeueDeviceEvent_cases {events events' : DeviceEventQueue}
    (eq : events.dequeueDeviceEvent = some (e, events')) :
    events.stored = e :: events'.stored ∧ events'.pending.length ≤ events.pending.length := by
  unfold dequeueDeviceEvent at eq
  split at eq
  · rename_i first pending is
    cases eq
    simp [stored, is]
  · rename_i is
    obtain ⟨⟨e', slots⟩, taken, same⟩ := Option.map_eq_some_iff.mp eq
    cases same
    simp [stored, is, takeSlot_cases taken]

/-- What the handle did not send stays, in its order, in the queue and in the slots. -/
theorem deviceEventCancel_stored (room : events.pending.length ≤ limit)
    (deviceHandle generation : BitVec 32) :
    (deviceEventCancel limit events deviceHandle generation).stored =
      events.stored.filter fun e =>
      ¬ (e.deviceHandle = deviceHandle ∧ e.generation = generation) := by
  have kept := cycle_eq (Option.guard fun e : DeviceEvent =>
    ¬ (e.deviceHandle = deviceHandle ∧ e.generation = generation)) events.pending []
    (by simpa using room)
  simp only [append_nil, nil_append] at kept
  rw [deviceEventCancel, stored, stored, filter_append, reduceOption_bind, kept,
    filterMap_eq_filter]

example : let event (handle : BitVec 32) (sequence : BitVec 64) : DeviceEvent :=
      ⟨1, deviceEventFlagNone, handle, 0, 1, 0, sequence⟩
    let left := deviceEventCancel deviceEventCapacity
      ⟨[event 2 0, event 1 1, event 3 2], start.overflow.set 4 (event 2 3) |>.set 9 (event 1 4)⟩
      1 0
    left.pending = [event 2 0, event 3 2] ∧ left.overflow = start.overflow.set 4 (event 2 3) := by
  decide

end DeviceEventQueue

/-! ## Merged events -/

def HasFlag (flag flags : DeviceEventFlags) : Prop := flag ||| flags = flags

instance (flag flags : DeviceEventFlags) : Decidable (HasFlag flag flags) :=
  inferInstanceAs (Decidable (_ = _))

theorem HasFlag.or (has : HasFlag flag flags) (more : DeviceEventFlags) :
    HasFlag flag (flags ||| more) := by
  rw [HasFlag, ← BitVec.or_assoc, has]

theorem hasFlag_left (flag flags : DeviceEventFlags) : HasFlag flag (flag ||| flags) := by
  rw [HasFlag, ← BitVec.or_assoc, BitVec.or_self]

theorem hasFlag_or_right (has : HasFlag flag flags) (more : DeviceEventFlags) :
    HasFlag flag (more ||| flags) := by
  rw [BitVec.or_comm]
  exact has.or more

/-- The count stands at its bound, and the flag says so. -/
def Saturated (event : DeviceEvent) : Prop :=
  event.count.toNat = maxCount ∧ HasFlag deviceEventFlagOverflow event.flags

instance (event : DeviceEvent) : Decidable (Saturated event) :=
  inferInstanceAs (Decidable (_ ∧ _))

theorem count_le (event : DeviceEvent) : event.count.toNat ≤ maxCount :=
  le_of_lt_succ event.count.isLt

theorem count_merge (target event : DeviceEvent) (extra : DeviceEventFlags) :
    (mergeDeviceEvent target event extra).count.toNat =
      min (target.count.toNat + event.count.toNat) maxCount := by
  unfold mergeDeviceEvent
  dsimp only
  split
  · rename_i more
    rw [min_eq_right (le_of_lt more)]
    rfl
  · rename_i less
    rw [min_eq_left (not_lt.mp less), BitVec.toNat_ofNat]
    apply mod_eq_of_lt
    have : maxCount < 2 ^ 32 := by decide
    omega

theorem HasFlag.merge_target (has : HasFlag flag target.flags)
    (event : DeviceEvent) (extra : DeviceEventFlags) :
    HasFlag flag (mergeDeviceEvent target event extra).flags := by
  unfold mergeDeviceEvent
  dsimp only
  split
  · exact (has.or _).or _
  · exact has.or _

theorem HasFlag.merge_event (has : HasFlag flag event.flags)
    (target : DeviceEvent) (extra : DeviceEventFlags) :
    HasFlag flag (mergeDeviceEvent target event extra).flags := by
  have flags := hasFlag_or_right ((has.or deviceEventFlagCoalesced).or extra) target.flags
  unfold mergeDeviceEvent
  dsimp only
  split
  · exact flags.or _
  · exact flags

theorem overflow_merge (more : maxCount < target.count.toNat + event.count.toNat)
    (extra : DeviceEventFlags) :
    HasFlag deviceEventFlagOverflow (mergeDeviceEvent target event extra).flags := by
  simp only [mergeDeviceEvent, gt_iff_lt, more, if_true]
  exact hasFlag_or_right (BitVec.or_self ..) _

/-- The event stands for these events, in their order. -/
structure MergeOf (parts : List DeviceEvent) (event : DeviceEvent) : Prop where
  nonempty : parts ≠ []
  origin : ∀ part ∈ parts, part.origin = event.origin
  count : event.count.toNat = min (totalCount parts) maxCount
  overflow : maxCount < totalCount parts → HasFlag deviceEventFlagOverflow event.flags
  flags : ∀ part ∈ parts, HasFlag part.flags event.flags
  sequence : ∀ part ∈ parts.getLast?, event.sequence = part.sequence

theorem mergeOf_single (event : DeviceEvent) (extra : DeviceEventFlags) :
    MergeOf [event] (addFlags event extra) where
  nonempty := cons_ne_nil event []
  origin := by simp
  count := by simp [totalCount, min_eq_left (count_le event)]
  overflow := by
    intro more
    have := count_le event
    simp [totalCount] at more
    omega
  flags := by
    intro part there
    rw [mem_singleton.mp there]
    exact hasFlag_left event.flags extra
  sequence := by simp [addFlags]

theorem MergeOf.addFlags (merged : MergeOf parts event)
    (extra : DeviceEventFlags) : MergeOf parts (addFlags event extra) where
  nonempty := merged.nonempty
  origin := merged.origin
  count := merged.count
  overflow := fun more => (merged.overflow more).or extra
  flags := fun part there => (merged.flags part there).or extra
  sequence := merged.sequence

theorem MergeOf.merge (merged : MergeOf parts target)
    (same : target.origin = event.origin) (extra : DeviceEventFlags) :
    MergeOf (parts ++ [event]) (mergeDeviceEvent target event extra) where
  nonempty := by simp
  origin := by
    intro part there
    cases mem_append.mp there with
    | inl old => exact merged.origin part old
    | inr last => rw [mem_singleton.mp last, origin_merge, same]
  count := by
    have count := merged.count
    rw [count_merge, totalCount_append]
    simp only [totalCount, map_cons, map_nil, sum_cons, sum_nil] at count ⊢
    omega
  overflow := by
    intro more
    rw [totalCount_append] at more
    have count := merged.count
    by_cases before : maxCount < totalCount parts
    · exact (merged.overflow before).merge_target event extra
    · apply overflow_merge
      simp only [totalCount, map_cons, map_nil, sum_cons, sum_nil] at count before more ⊢
      omega
  flags := by
    intro part there
    cases mem_append.mp there with
    | inl old => exact (merged.flags part old).merge_target event extra
    | inr last =>
      rw [mem_singleton.mp last]
      exact HasFlag.merge_event (BitVec.or_self ..) target extra
  sequence := by
    simp [mergeDeviceEvent]

/-! ## Calls -/

structure EventLog where
  events : DeviceEventQueue
  -- The events of the calls that were accepted, and the events that were taken.
  accepted : List DeviceEvent
  out : List DeviceEvent

inductive EventCall where
  | queue (event : DeviceEvent)
  | dequeue

namespace EventLog

open DeviceEventQueue

def start : EventLog := ⟨.start, [], []⟩

def exec (limit : Nat) (log : EventLog) : EventCall → EventLog
  | .queue event =>
    let result := queueDeviceEvent limit log.events event
    { log with
      events := result.1
      accepted := if result.2 then log.accepted ++ [event] else log.accepted }
  | .dequeue =>
    match dequeueDeviceEvent log.events with
    | none => log
    | some (event, events) => { log with events, out := log.out ++ [event] }

/-- All events that were not lost, in the order in which they are taken. -/
def kept (log : EventLog) : List DeviceEvent := log.out ++ log.events.stored

/-- The call puts no event of the source into the queue while an earlier one is in the slots. -/
def Tidy (limit : Nat) (k : EventSource) (log : EventLog) : EventCall → Prop
  | .queue event => event.origin = k → TidyFor limit log.events event
  | .dequeue => True

def TidyStep (limit : Nat) (k : EventSource) (log : EventLog) (call : EventCall) (log' : EventLog) :
    Prop :=
  Tidy limit k log call ∧ log.exec limit call = log'

def Step (limit : Nat) (log : EventLog) (call : EventCall) (log' : EventLog) : Prop :=
  log.exec limit call = log'

end EventLog

/-! ## Parts -/

section Queued

variable {tidy : Prop} {parts : List (List DeviceEvent)}

/-- The parts of the events of one source. -/
theorem forall₂_ofSource (stands : List.Forall₂ MergeOf parts events) (k : EventSource) :
    ∃ own : List (List DeviceEvent),
    own.flatten = ofSource k parts.flatten ∧ List.Forall₂ MergeOf own (ofSource k events) := by
  induction stands with
  | nil => exact ⟨[], rfl, .nil⟩
  | @cons part event parts events merged rest ih =>
    obtain ⟨own, all, stands⟩ := ih
    rw [flatten_cons, ofSource_append, ← all, ofSource_cons]
    by_cases same : event.origin = k
    · have whole : ofSource k part = part :=
        filter_eq_self.mpr fun e there => by simp [merged.origin e there, same]
      rw [whole, if_pos same]
      exact ⟨part :: own, rfl, .cons merged stands⟩
    · rw [ofSource_eq_nil fun e there => merged.origin e there ▸ same, if_neg same]
      exact ⟨own, rfl, stands⟩

theorem ofSource_flatten_nil (stands : List.Forall₂ MergeOf parts events)
    (none : ofSource k events = []) :
    ofSource k parts.flatten = [] := by
  obtain ⟨own, all, stands⟩ := forall₂_ofSource stands k
  rw [none] at stands
  cases stands
  exact all.symm

theorem saturated_or_totalCount (stands : List.Forall₂ MergeOf parts events) :
    (∃ e ∈ events, Saturated e) ∨ totalCount events = totalCount parts.flatten := by
  induction stands with
  | nil => exact .inr rfl
  | @cons part event parts events merged rest ih =>
    have count := merged.count
    by_cases more : maxCount < totalCount part
    · exact .inl ⟨event, mem_cons_self, by omega, merged.overflow more⟩
    rcases ih with ⟨e, there, full⟩ | same
    · exact .inl ⟨e, mem_cons_of_mem _ there, full⟩
    · right
      rw [flatten_cons, totalCount_append, totalCount_cons, same]
      omega

theorem forall₂_split {R : α → β → Prop} {l : List α}
    (related : List.Forall₂ R l (left ++ right)) :
    ∃ l₁ l₂, l = l₁ ++ l₂ ∧ List.Forall₂ R l₁ left ∧
      List.Forall₂ R l₂ right :=
  ⟨_, _, (take_append_drop left.length l).symm, forall₂_take_append _ _ _ related,
  forall₂_drop_append _ _ _ related⟩

/-- A call adds its event to the parts; nothing of its source comes later, if at most one event of
it is stored. -/
theorem Queued.adds (queued : Queued tidy event l l' ok)
    (stands : List.Forall₂ MergeOf parts (out ++ l)) :
    ∃ parts' before after, List.Forall₂ MergeOf parts' (out ++ l') ∧
      parts.flatten = before ++ after ∧
      parts'.flatten = before ++ (if ok then event :: after else after) ∧
      (tidy → (ofSource event.origin l).length ≤ 1 → ofSource event.origin after = []) := by
  cases queued with
  | @merge l r held extra same =>
    rw [← append_assoc] at stands ⊢
    obtain ⟨early, late, rfl, first, rest⟩ := forall₂_split stands
    obtain ⟨part, late, merged, later, rfl⟩ := forall₂_cons_right_iff.mp rest
    refine ⟨early ++ (part ++ [event]) :: late, early.flatten ++ part, late.flatten,
      rel_append first (.cons (merged.merge same extra) later), by simp, by simp, fun _ single =>
      ?_⟩
    apply ofSource_flatten_nil later
    simp only [ofSource_append, ofSource_cons, same, if_true, length_append, length_cons] at single
    exact length_eq_zero_iff.mp (by omega)
  | @insert l r extra absent =>
    rw [← append_assoc] at stands ⊢
    obtain ⟨early, late, rfl, first, rest⟩ := forall₂_split stands
    refine ⟨early ++ [event] :: late, early.flatten, late.flatten,
      rel_append first (.cons (mergeOf_single event extra) rest),
      by simp, by simp, fun clean _ => ?_⟩
    apply ofSource_flatten_nil rest
    exact ofSource_eq_nil fun e there => absent clean e (mem_append_right l there)
  | refuse =>
    obtain ⟨early, late, rfl, first, rest⟩ := forall₂_split stands
    refine ⟨early ++ late, (early ++ late).flatten, [], rel_append first ?_, by simp, by simp,
      fun _ _ => rfl⟩
    rw [forall₂_map_right_iff]
    exact rest.imp fun _ _ merged => merged.addFlags _

/-- At most one event of the source is stored. -/
theorem Queued.single (queued : Queued tidy event l l' ok) (keeps : event.origin = k → tidy)
    (single : (ofSource k l).length ≤ 1) : (ofSource k l').length ≤ 1 := by
  cases queued with
  | @merge l r held extra same =>
    rw [ofSource_append, ofSource_cons, length_append] at single ⊢
    by_cases own : held.origin = k <;> simpa [own] using single
  | @insert l r extra absent =>
    by_cases own : event.origin = k
    · have alone : ofSource k (l ++ r) = [] := ofSource_eq_nil fun e there =>
        own ▸ absent (keeps own) e there
      rw [ofSource_append, append_eq_nil_iff] at alone
      simp [ofSource_append, ofSource_cons, own, alone]
    · simpa [ofSource_append, ofSource_cons, own] using single
  | refuse =>
    rw [ofSource_markOverflow, length_map]
    exact single

theorem Queued.otherSources_eq (queued : Queued tidy event l l' ok) : otherSources event.origin l' =
    if ok then otherSources event.origin l
      else (otherSources event.origin l).map DeviceEventQueue.markOverflow := by
  cases queued with
  | merge extra same => simp [otherSources, same]
  | insert extra absent => simp [otherSources]
  | refuse => exact filter_map

end Queued

/-! ## Runs -/

namespace EventLog

open DeviceEventQueue

variable {log : EventLog}

theorem exec_cases (room : log.events.pending.length ≤ limit) (call : EventCall) :
    (log.exec limit call).events.pending.length ≤ limit ∧
      ((∃ event ok, call = .queue event ∧ (log.exec limit call).out = log.out ∧
          (log.exec limit call).accepted =
          (if ok then log.accepted ++ [event] else log.accepted) ∧
          Queued
          (TidyFor limit log.events event) event log.events.stored
          (log.exec limit call).events.stored ok) ∨
        (∃ e, log.events.stored = e :: (log.exec limit call).events.stored ∧
          (log.exec limit call).out = log.out ++ [e] ∧
          (log.exec limit call).accepted = log.accepted) ∨ log.exec limit call = log) := by
  cases call with
  | queue event =>
    obtain ⟨queued, less⟩ := queueDeviceEvent_cases room event
    exact ⟨less, .inl ⟨event, _, rfl, rfl, rfl, queued⟩⟩
  | dequeue =>
    simp only [exec]
    cases taken : dequeueDeviceEvent log.events with
    | none => exact ⟨room, .inr (.inr rfl)⟩
    | some pair =>
      obtain ⟨first, less⟩ := dequeueDeviceEvent_cases taken
      exact ⟨less.trans room, .inr (.inl ⟨pair.1, first, rfl, rfl⟩)⟩

/-- What was taken or is stored stands for what was accepted, in turn for a source whose calls are
tidy. -/
theorem run_parts (tidied : Prop) (k : EventSource)
    (run : Run (fun log call log' => (tidied → Tidy limit k log call) ∧
      exec limit log call = log') start calls log) :
    log.events.pending.length ≤ limit ∧ ∃ parts : List (List DeviceEvent),
      List.Forall₂ MergeOf parts log.kept ∧
      parts.flatten.Perm log.accepted ∧
        (tidied → (ofSource k log.events.stored).length ≤ 1 ∧
          ofSource k parts.flatten = ofSource k log.accepted) := by
  apply run.preserves _ ⟨zero_le limit, [], .nil, .nil, fun _ => ⟨zero_le 1, rfl⟩⟩
  rintro log call log' ⟨room, parts, stands, all, turn⟩ ⟨tidy, rfl⟩
  obtain ⟨less, effect⟩ := exec_cases room call
  refine ⟨less, ?_⟩
  rcases effect with ⟨event, ok, rfl, out, accepted, queued⟩ |
    ⟨e, first, out, accepted⟩ | same
  · obtain ⟨parts', before, after, stands', was, is, last⟩ := queued.adds stands
    rw [was] at all turn
    rw [kept, out, accepted]
    refine ⟨parts', stands', ?_,
      fun holds => ⟨queued.single (tidy holds) (turn holds).1, ?_⟩⟩
    · cases ok with
      | false => exact is ▸ all
      | true =>
        exact is ▸ perm_middle.trans
          ((all.cons event).trans (perm_append_singleton event log.accepted).symm)
    · obtain ⟨single, same⟩ := turn holds
      cases ok with
      | false => exact is ▸ same
      | true =>
        rw [is, if_pos rfl, if_pos rfl, ofSource_append, ofSource_append, ← same, ofSource_append,
          ofSource_cons]
        by_cases own : event.origin = k
        · have nothing : ofSource k after = [] := own ▸ last (tidy holds own) (own ▸ single)
          simp [own, nothing, ofSource_cons, ofSource_eq_nil]
        · simp [own, ofSource]
  · rw [kept, out, accepted, append_assoc, singleton_append, ← first]
    refine ⟨parts, stands, all, fun holds => ⟨?_, (turn holds).2⟩⟩
    have single := (turn holds).1
    rw [first] at single
    exact ((sublist_cons_self e _).filter _).length_le.trans single
  · rw [same]
    exact ⟨parts, stands, all, turn⟩

/-- In every state that calls lead to: the counts that were taken and are stored for a source are
those that were accepted, unless a flag reports that one is saturated; the events of a source
stand in the order of their first parts, as long as none enters the queue while an earlier one
is in the slots; and a call leaves the events of the other sources as they are, except that a
call that is refused flags all of them. -/
theorem device_events_kept (run : Run (Step limit) start calls log) :
    (∀ k, (∃ e ∈ log.out ++ log.events.stored, e.origin = k ∧ Saturated e) ∨
      totalCount (ofSource k log.out) + totalCount (ofSource k log.events.stored) =
      totalCount (ofSource k log.accepted)) ∧
    (∀ k, Run (TidyStep limit k) start calls log → ∃ parts : List (List DeviceEvent),
      parts.flatten = ofSource k log.accepted ∧
        List.Forall₂ MergeOf parts (ofSource k (log.out ++ log.events.stored))) ∧
    ∀ event, otherSources event.origin (queueDeviceEvent limit log.events event).1.stored =
      if (queueDeviceEvent limit log.events event).2 then otherSources event.origin
      log.events.stored
      else (otherSources event.origin log.events.stored).map markOverflow := by
  have untidy k := run_parts False k (run.mono fun _ _ _ ran => ⟨False.elim, ran⟩)
  refine ⟨fun k => ?_, fun k tidy => ?_, fun event => ?_⟩
  · obtain ⟨-, parts, stands, all, -⟩ := untidy k
    obtain ⟨own, flat, stands⟩ := forall₂_ofSource stands k
    rw [← totalCount_append, ← ofSource_append]
    rcases saturated_or_totalCount stands with ⟨e, there, full⟩ | same
    · obtain ⟨there, origin⟩ := mem_filter.mp there
      exact .inl ⟨e, there, by simpa using origin, full⟩
    · exact .inr (same.trans (flat ▸ ((all.filter _).map _).sum_eq))
  · obtain ⟨-, parts, stands, -, turn⟩ :=
      run_parts True k (tidy.mono fun _ _ _ ran => ⟨fun _ => ran.1, ran.2⟩)
    obtain ⟨own, flat, stands⟩ := forall₂_ofSource stands k
    exact ⟨own, flat.trans (turn trivial).2, stands⟩
  · exact (queueDeviceEvent_cases (untidy event.origin).1 event).1.otherSources_eq

instance (limit : Nat) (k : EventSource) (log : EventLog) (call : EventCall) :
    Decidable (Tidy limit k log call) := by
  unfold Tidy TidyFor
  split <;> infer_instance

/-- One interrupt of a line of device 1. -/
def interrupt (line : Nat) (sequence : BitVec 64) : DeviceEvent where
  kind := 1
  flags := deviceEventFlagNone
  deviceHandle := 1
  source := BitVec.ofNat 32 line
  count := 1
  generation := 0
  sequence := sequence

/-- Two interrupts of a line are merged and taken as one event. -/
theorem device_events_kept_merged : ∃ log : EventLog, log.out.map (·.count) = [2] ∧
    (∃ parts : List (List DeviceEvent), parts.flatten =
      ofSource (interrupt 0 0).origin log.accepted ∧
      List.Forall₂ MergeOf parts
      (ofSource (interrupt 0 0).origin (log.out ++ log.events.stored))) := by
  have run : Run (TidyStep deviceEventCapacity (interrupt 0 0).origin) start
      [.queue (interrupt 0 1), .queue (interrupt 0 2), .dequeue] _ :=
    .cons ⟨by decide, rfl⟩ (.cons ⟨by decide, rfl⟩ (.cons ⟨trivial, rfl⟩ (.nil _)))
  exact ⟨_, by decide, (device_events_kept (run.mono fun _ _ _ step => step.2)).2.1 _ run⟩

/-- The interrupts of lines 0 to `lines - 1`. -/
def interrupts (lines : Nat) : List EventCall :=
  (List.range lines).map fun line => .queue (interrupt line 0)

/-- With the queue and all slots full, a call for line 40 changes the events of the other lines.
With the queue full, an interrupt of line 8 goes into a slot; after an event was taken, the next one
goes into the queue and is taken first. -/
theorem refused_call_flags_others_and_slots_overtaken :
    (∃ calls log, Run (Step deviceEventCapacity) start calls log ∧
      otherSources (interrupt 40 0).origin
      (queueDeviceEvent deviceEventCapacity log.events (interrupt 40 0)).1.stored ≠
        otherSources (interrupt 40 0).origin log.events.stored) ∧
    ∃ calls log, Run (Step deviceEventCapacity) start calls log ∧
      (ofSource (interrupt 8 0).origin log.accepted).map (·.sequence) = [1, 2] ∧
        (ofSource (interrupt 8 0).origin log.out).map (·.sequence) = [2, 1] := by
  refine ⟨⟨interrupts 40, _, Run.foldl _ _ _, ?_⟩,
    interrupts 8 ++ [.queue (interrupt 8 1), .dequeue,
    .queue (interrupt 8 2)] ++ replicate 9 .dequeue, _, Run.foldl _ _ _, ?_⟩
  · decide +kernel
  · decide +kernel

end EventLog

end Mecocoa.Ipc
