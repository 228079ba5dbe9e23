import Mecocoa.Lib.Run

/-! # Level interrupts of a shared pin

The level-triggered registrations of one pin of a GPIO controller whose other pins have none.  Each
thread is at a stage of one operation, and the steps of all threads come in any order.
-/

namespace Mecocoa.Gpio

open Lib (Run)
open Function (update update_apply)

/-- The values 0, 1 and 2 of `active`. -/
inductive Use where
  | free | live | closing
  deriving DecidableEq

/-- `DeviceGPIOInterruptSlot`.  `handled` is what an observer notes: the handler was called after
the last interrupt. -/
structure Slot where
  active : Use := .free
  awaitingCompletion : Bool := false
  eventQueued : Bool := false
  pendingCount : Nat := 0
  handled : Bool := false
  deriving DecidableEq

structure Pin (n : Nat) where
  slots : Fin n → Slot := fun _ => {}
  enabled : Bool := false
  gsiReady : Bool := false

/-- What a registration is told: whether the pin is claimed and masked, routed and enabled, and
whether the GSI is unbound if nobody uses it any more. -/
structure Answers where
  claimed : Bool := true
  routed : Bool := true
  enabled : Bool := true
  unbound : Bool := true
  deriving DecidableEq

inductive Registering where
  | allocate | mask | route | activate | enable | retract | discard
  deriving DecidableEq

inductive Unregistering where
  | deactivate | scan | disable | wait | release
  deriving DecidableEq

/-- What a thread does next. -/
inductive Stage (n : Nat) where
  | idle
  -- `DispatchGPIOControllerInterrupt`
  | leader
  | mask
  | targets (left : List (Fin n))
  | queue (i : Fin n) (left : List (Fin n))
  /-- `ok` says that the backend acknowledges and enables the interrupt. -/
  | complete (i : Fin n) (ok exchanged : Bool)
  | register (i : Fin n) (answers : Answers) (phase : Registering)
  /-- `ok` is what `ReleaseGPIO` answers. -/
  | unregister (i : Fin n) (ok unbound : Bool) (phase : Unregistering)
  -- `DispatchGPIOInterruptEvent`
  | callHandler (i : Fin n)
  deriving DecidableEq

namespace Pin

def modify (s : Pin n) (i : Fin n) (f : Slot → Slot) : Pin n :=
  { s with slots := update s.slots i (f (s.slots i)) }

def Live (s : Pin n) (i : Fin n) : Prop := (s.slots i).active = .live

instance Live.decide (s : Pin n) (i : Fin n) : Decidable (s.Live i) :=
  inferInstanceAs (Decidable (_ = _))

def setActive (s : Pin n) (i : Fin n) (active : Use) : Pin n := s.modify i ({ · with active })

def releaseGsiIfUnused (s : Pin n) (unbound : Bool) : Pin n :=
  if unbound ∧ ¬ ∃ i, s.Live i then { s with gsiReady := false } else s

/-- The event of an interrupt; `device_event_proc` is asked only where none is queued. -/
def queueEvent (s : Pin n) (i : Fin n) (taken : Bool) : Pin n :=
  if s.Live i then s.modify i fun slot => { slot with
    pendingCount := (slot.pendingCount + 1) % 2 ^ 32, eventQueued := slot.eventQueued || taken }
  else s

def callHandler (s : Pin n) (i : Fin n) : Pin n :=
  if s.Live i then s.modify i fun slot => { slot with
    eventQueued := false, pendingCount := 0, handled := slot.handled || slot.pendingCount != 0 }
  else s

end Pin

/-- One step of a thread; an unregistration waits while an interrupt is dispatched. -/
def Stage.advance (s : Pin n) (dispatching taken : Bool) : Stage n → Option (Pin n × Stage n)
  | .idle => none
  | .leader =>
    match (List.finRange n).find? fun i => s.Live i with
    | some i => some (s, if (s.slots i).awaitingCompletion then .idle else .mask)
    | none => some (s, .idle)
  | .mask => some ({ s with enabled := false }, .targets (List.finRange n))
  | .targets [] => some (s, .idle)
  | .targets (i :: left) =>
    if s.Live i then some (s.modify i ({ · with awaitingCompletion := true, handled := false }),
      .queue i left)
    else some (s, .targets left)
  | .queue i left => some (s.queueEvent i taken, .targets left)
  | .complete i ok false =>
    if s.Live i ∧ (s.slots i).awaitingCompletion then
      some (s.modify i ({ · with awaitingCompletion := false }), .complete i ok true)
    else some (s, .idle)
  | .complete i ok true =>
    some (if ok then { s with enabled := true }
      else s.modify i ({ · with awaitingCompletion := true }), .idle)
  | .register i a phase =>
    match phase with
    | .allocate =>
      if (s.slots i).active = .free then
        some (s.setActive i .closing, .register i a (if a.claimed then .mask else .discard))
      else some (s, .idle)
    | .mask => some ({ s with enabled := false }, .register i a .route)
    | .route =>
      if s.gsiReady ∨ a.routed then some ({ s with gsiReady := true }, .register i a .activate)
      else some (s, .register i a .discard)
    | .activate =>
      some (s.setActive i .live, .register i a (if a.enabled then .enable else .retract))
    | .enable => some ({ s with enabled := true }, .idle)
    | .retract =>
      some ((s.setActive i .closing).releaseGsiIfUnused a.unbound, .register i a .discard)
    | .discard => some (s.modify i fun _ => {}, .idle)
  | .unregister i ok unbound phase =>
    match phase with
    | .deactivate =>
      if (s.slots i).active = .free then some (s, .idle)
      else some (s.setActive i .closing, .unregister i ok unbound .scan)
    | .scan =>
      some (s, .unregister i ok unbound (if ∃ j ≠ i, s.Live j then .wait else .disable))
    | .disable => some ({ s with enabled := false }, .unregister i ok unbound .wait)
    | .wait => if dispatching then none else some (s, .unregister i ok unbound .release)
    | .release =>
      some (if ok then (s.releaseGsiIfUnused unbound).modify i fun _ => {}
        else s.setActive i .live, .idle)
  | .callHandler i => some (s.callHandler i, .idle)

inductive Operation (n : Nat) where
  /-- An interrupt that the backend reports and masks. -/
  | interrupt
  | complete (i : Fin n) (ok : Bool)
  | register (i : Fin n) (answers : Answers)
  | unregister (i : Fin n) (ok unbound : Bool)
  | dispatchEvent (i : Fin n)

def Operation.first : Operation n → Stage n
  | .interrupt => .leader
  | .complete i ok => .complete i ok false
  | .register i answers => .register i answers .allocate
  | .unregister i ok unbound => .unregister i ok unbound .deactivate
  | .dispatchEvent i => .callHandler i

structure System (n k : Nat) where
  pin : Pin n := {}
  stage : Fin k → Stage n := fun _ => .idle

inductive Event (n k : Nat) where
  | start (t : Fin k) (operation : Operation n)
  /-- `taken` is what `device_event_proc` answers, where it is asked. -/
  | step (t : Fin k) (taken : Bool)

def Stage.interrupts : Stage n → Bool
  | .leader | .mask | .targets _ | .queue _ _ => true
  | .idle | .complete _ _ _ | .register _ _ _ | .unregister _ _ _ _ | .callHandler _ => false

def Event.exec (s : System n k) : Event n k → Option (System n k)
  | .start t operation =>
    if s.stage t = .idle then some { s with stage := update s.stage t operation.first } else none
  | .step t taken =>
    ((s.stage t).advance s.pin (decide (∃ u, (s.stage u).interrupts = true)) taken).map
        fun (pin, stage) =>
      ⟨pin, update s.stage t stage⟩

/-! ## What the code relies on -/

namespace Stage

/-- The registration that the thread works on. -/
def slot : Stage n → Option (Fin n)
  | .complete i _ _ | .register i _ _ | .unregister i _ _ _ => some i
  | .idle | .leader | .mask | .targets _ | .queue _ _ | .callHandler _ => none

/-- A registration between its claim of the pin and its end. -/
def registers : Stage n → Bool
  | .register _ a phase => if phase = .allocate then a.claimed else phase ≠ .discard
  | .idle | .leader | .mask | .targets _ | .queue _ _ | .complete _ _ _
    | .unregister _ _ _ _ | .callHandler _ => false

/-- A registration that is going to fail with the pin masked. -/
def fails : Stage n → Bool
  | .register i a phase => (!a.enabled || phase = .retract) && registers (.register i a phase)
  | .idle | .leader | .mask | .targets _ | .queue _ _ | .complete _ _ _
    | .unregister _ _ _ _ | .callHandler _ => false

/-- The thread is going to enable the pin. -/
def enables : Stage n → Bool
  | .complete _ ok _ => ok
  | .register i a phase => registers (.register i a phase)
  | .idle | .leader | .mask | .targets _ | .queue _ _ | .unregister _ _ _ _ | .callHandler _ =>
    false

/-- The registration whose event the thread is going to queue. -/
def queues : Stage n → Option (Fin n)
  | .queue i _ => some i
  | .idle | .leader | .mask | .targets _ | .complete _ _ _ | .register _ _ _
    | .unregister _ _ _ _ | .callHandler _ => none

def unregisters : Stage n → Bool
  | .unregister _ _ _ _ => true
  | .idle | .leader | .mask | .targets _ | .queue _ _ | .complete _ _ _
    | .register _ _ _ | .callHandler _ => false

/-- The thread has masked the pin or taken a completion, and is going to enable the pin or to leave
`j` awaiting completion. -/
def Serves (j : Fin n) : Stage n → Prop
  | .targets left | .queue _ left => j ∈ left
  | .complete i ok exchanged => exchanged = true ∧ (ok = true ∨ i = j)
  | .register _ _ phase => phase = .route ∨ phase = .activate ∨ phase = .enable ∨
    phase = .retract
  | .idle | .leader | .mask | .unregister _ _ _ _ | .callHandler _ => False

end Stage

def Pin.Awaiting (s : Pin n) (i : Fin n) : Prop :=
  s.Live i ∧ (s.slots i).awaitingCompletion = true

instance Pin.Awaiting.decide (s : Pin n) (i : Fin n) : Decidable (s.Awaiting i) :=
  inferInstanceAs (Decidable (_ ∧ _))

namespace System

/-- No interrupt is dispatched, no completion about to be taken back and no registration but one
awaits completion. -/
def Calm (s : System n k) (i : Fin n) : Prop :=
  (∀ t, (s.stage t).interrupts = false ∧ ∀ j, s.stage t ≠ .complete j false true) ∧
    ∀ j ≠ i, ¬ s.pin.Awaiting j

/-- What the code does not make sure of. -/
def Orderly (s : System n k) : Event n k → Prop
  | .step t taken => ∀ i, (s.stage t).queues = some i → s.pin.Live i →
      ((s.pin.slots i).eventQueued = true ∨ taken = true) ∧
      (s.pin.slots i).pendingCount + 1 < 2 ^ 32
  | .start _ .interrupt => ∀ t, (s.stage t).enables = false
  | .start _ (.complete i ok) => (∀ t, (s.stage t).slot ≠ some i) ∧ (ok = true → s.Calm i)
  | .start _ (.register i a) => (∀ t, (s.stage t).slot ≠ some i) ∧
    (a.claimed = true → s.Calm i ∧
      ¬ s.pin.Awaiting i ∧
      (∀ t, (s.stage t).unregisters = false ∧ (s.stage t).fails = false) ∧
        (a.enabled = false → (∀ t, (s.stage t).registers = false) ∧ ∀ j, ¬ s.pin.Live j))
  | .start _ (.unregister i ok _) =>
    (∀ t, (s.stage t).slot ≠ some i ∧ (s.stage t).registers = false) ∧ ok = true
  | .start _ (.dispatchEvent _) => True

end System


/-! ## The invariant -/

/-- What a thread at this stage knows of the pin. -/
def Stage.Ok (s : Pin n) : Stage n → Prop
  | .targets _ | .queue _ _ => s.enabled = false
  | .complete i ok exchanged => (exchanged = true → s.Live i) ∧
    (ok = false → exchanged = true → s.enabled = false) ∧
      (ok = true → ∀ j, s.Awaiting j → j = i ∧ exchanged = false)
  | .register i a phase =>
      (phase = .mask ∨ phase = .route ∨ phase = .activate →
      s.slots i = { active := .closing }) ∧
      (phase = .activate → s.gsiReady = true) ∧ (phase = .discard → ¬ s.Live i) ∧
      ((Stage.register i a phase).registers = true → ∀ j, ¬ s.Awaiting j) ∧
      ((Stage.register i a phase).fails = true → ∀ j, s.Live j → j = i)
  | .unregister i ok _ phase =>
      ok = true ∧ (phase ≠ .deactivate → ¬ s.Live i) ∧
      (phase = .disable → ∀ j, ¬ s.Live j)
  | .idle | .leader | .mask | .callHandler _ => True

structure PinOk (s : Pin n) : Prop where
  free : ∀ i, (s.slots i).active = .free → s.slots i = {}
  routed : ∀ i, s.Live i → s.gsiReady = true
  safe : s.enabled = true → ∀ i, ¬ s.Awaiting i

/-- Which stages go together. -/
structure Stages (s : System n k) : Prop where
  own : ∀ t u i, (s.stage t).slot = some i → (s.stage u).slot = some i → t = u
  quiet : ∀ t u, (s.stage t).enables = true → (s.stage u).interrupts = false
  apart : ∀ t u, (s.stage t).registers = true → (s.stage u).unregisters = false
  again : ∀ t u i, (s.stage t).enables = true → s.stage u ≠ .complete i false true
  lone : ∀ t u, (s.stage t).fails = true → (s.stage u).registers = true → t = u

variable {s : System n k}

attribute [local grind =] Stage.slot Stage.registers Stage.fails Stage.enables Stage.unregisters
  Stage.Serves
  Stage.interrupts Stage.queues

@[grind =]
theorem slots_modify (s : Pin n) (i j : Fin n) (f : Slot → Slot) :
    (s.modify i f).slots j = if j = i then f (s.slots i) else s.slots j := update_apply ..

@[grind =]
theorem enabled_modify (s : Pin n) (i : Fin n) (f : Slot → Slot) :
    (s.modify i f).enabled = s.enabled := rfl

@[grind =]
theorem gsiReady_modify (s : Pin n) (i : Fin n) (f : Slot → Slot) :
    (s.modify i f).gsiReady = s.gsiReady := rfl

/-- What a step of another thread must not do. -/
theorem Stage.Ok.stable {s s' : Pin n} {x : Stage n} (ok : x.Ok s)
    (slots : ∀ j, x.slot = some j → s'.slots j = s.slots j ∨ s.Live j ∧ s'.Live j)
    (live : (∀ j, s'.Live j → s.Live j) ∨ x.unregisters = false ∧ x.fails = false)
    (gsi : (s.gsiReady = true → s'.gsiReady = true) ∨ x.registers = false)
    (awaiting : (∀ j, s'.Awaiting j → s.Awaiting j) ∨ x.enables = false)
    (enabled : (s.enabled = false → s'.enabled = false) ∨
      x.interrupts = false ∧ ∀ i, x ≠ .complete i false true) :
    x.Ok s' := by
  cases x
  all_goals simp only [Stage.Ok, Pin.Awaiting, Pin.Live] at *
  all_goals grind

/-- A thread goes on with its operation, or returns. -/
theorem Stages.goes_on (stages : Stages s) {pin : Pin n} (at_ : s.stage t = x)
    (slot : y.slot = none ∨ y.slot = x.slot)
    (interrupts : y.interrupts = true → x.interrupts = true)
    (registers : y.registers = true → x.registers = true)
    (fails : y.fails = true → x.fails = true) (enables : y.enables = true → x.enables = true)
    (unregisters : y.unregisters = true → x.unregisters = true)
    (again : ∀ i, y = .complete i false true → ∀ u, (s.stage u).enables = false) :
    Stages ⟨pin, update s.stage t y⟩ := by
  cases stages
  constructor
  all_goals simp only [update_apply] at *
  all_goals grind

theorem Stages.begins (stages : Stages s) (orderly : s.Orderly (.start t operation)) :
    Stages ⟨s.pin, update s.stage t operation.first⟩ := by
  cases stages
  cases operation
  all_goals simp only [System.Orderly, System.Calm] at orderly
  all_goals constructor
  all_goals simp only [Operation.first, update_apply] at *
  all_goals grind

/-! ## One step -/

/-- What the other threads see of a step. -/
structure Stage.Effect (x : Stage n) (s s' : Pin n) : Prop where
  slots : ∀ j, x.slot ≠ some j → s'.slots j = s.slots j ∨ s.Live j ∧ s'.Live j
  live : x.registers = false → ∀ j, s'.Live j → s.Live j
  gsi : x.unregisters = false → x.fails = false → s.gsiReady = true → s'.gsiReady = true
  awaiting : x.interrupts = false → (∀ i, x ≠ .complete i false true) →
    ∀ j, s'.Awaiting j → s.Awaiting j
  enabled : x.enables = false → s.enabled = false → s'.enabled = false

/-- An event waits in the queue, or the handler was called. -/
def Slot.Given (slot : Slot) : Prop :=
  slot.eventQueued = true ∧ slot.pendingCount ≠ 0 ∨ slot.handled = true

/-- Why a step masks the pin or makes a registration wait. -/
structure Stage.Reason (x : Stage n) (s : Pin n) (y : Stage n) (s' : Pin n) : Prop where
  alive : s'.enabled = false → ∀ j, s'.Live j → y.Serves j ∨ s'.Awaiting j ∨
    s.enabled = false ∧ s.Live j ∧ ¬ x.Serves j ∧ ¬ s.Awaiting j
  waits : ∀ j, s'.Awaiting j ∨ y = .complete j false true →
    s.Awaiting j ∨ x = .complete j false true ∨ y.queues = some j
  keeps : ∀ j, (s.slots j).Given → (s'.slots j).Given ∨ y.queues = some j ∨
    x.slot = some j ∧ ¬ s'.Awaiting j ∧ y ≠ .complete j false true
  queue : ∀ j, x.queues = some j → s.Live j → (s'.slots j).Given

section Advance

variable {s s' : Pin n} {x y : Stage n} (ran : x.advance s dispatching taken = some (s', y))
  (ok : x.Ok s)

include ran ok

theorem Stage.advance_effect : x.Effect s s' := by
  cases x
  case' targets left => cases left
  case' complete i ok' exchanged => cases exchanged
  case' register i a phase => cases phase
  case' unregister i ok' unbound phase => cases phase
  all_goals simp only [Stage.advance, Pin.queueEvent, Pin.callHandler,
    Pin.releaseGsiIfUnused] at ran
  all_goals (repeat' split at ran) <;> cases ran
  all_goals constructor
  all_goals simp only [Stage.Ok, Pin.Awaiting, Pin.Live, Pin.setActive] at *
  all_goals grind -ring -linarith -order -ac

theorem Stage.advance_ok (pinOk : PinOk s) : y.Ok s' ∧ PinOk s' := by
  obtain ⟨free, routed, safe⟩ := pinOk
  cases x
  case' targets left => cases left
  case' complete i ok' exchanged => cases exchanged
  case' register i a phase => cases phase
  case' unregister i ok' unbound phase => cases phase
  all_goals simp only [Stage.advance, Pin.queueEvent, Pin.callHandler,
    Pin.releaseGsiIfUnused] at ran
  all_goals (repeat' split at ran) <;> cases ran
  all_goals refine ⟨?_, ?_, ?_, ?_⟩
  all_goals simp only [Stage.Ok, Pin.Awaiting, Pin.Live, Pin.setActive] at *
  all_goals grind -ring -linarith -order -ac

theorem Stage.advance_reason (routed : ∀ i, s.Live i → s.gsiReady = true)
    (orderly : ∀ i, x.queues = some i → s.Live i →
      ((s.slots i).eventQueued = true ∨ taken = true) ∧ (s.slots i).pendingCount + 1 < 2 ^ 32) :
    x.Reason s y s' := by
  cases x
  case' targets left => cases left
  case' complete i ok' exchanged => cases exchanged
  case' register i a phase => cases phase
  case' unregister i ok' unbound phase => cases phase
  all_goals simp only [Stage.advance, Pin.queueEvent, Pin.callHandler,
    Pin.releaseGsiIfUnused] at ran
  all_goals (repeat' split at ran) <;> cases ran
  all_goals constructor
  all_goals simp only [Stage.Ok, Slot.Given, Pin.Awaiting, Pin.Live, Pin.setActive] at *
  all_goals grind -ring -linarith -order -ac

end Advance

/-! ## All threads -/

/-- The pin is masked for a reason, and who awaits completion gets its event. -/
structure Justified (s : System n k) : Prop where
  alive : s.pin.enabled = false → ∀ j, s.pin.Live j →
    s.pin.Awaiting j ∨ ∃ t, (s.stage t).Serves j
  given : ∀ j, s.pin.Awaiting j ∨ (∃ u, s.stage u = .complete j false true) →
    (s.pin.slots j).Given ∨ ∃ u, (s.stage u).queues = some j

structure Inv (s : System n k) : Prop where
  stages : Stages s
  ok : ∀ t, (s.stage t).Ok s.pin
  pinOk : PinOk s.pin
  justified : Justified s

namespace Inv

theorem init : Inv ({} : System n k) where
  stages := ⟨nofun, nofun, nofun, nofun, nofun⟩
  ok _ := trivial
  pinOk := ⟨fun _ _ => rfl, nofun, nofun⟩
  justified := ⟨nofun, by rintro j (⟨live, -⟩ | ⟨u, is⟩) <;> contradiction⟩

variable (inv : Inv s) {pin : Pin n}

include inv

/-- What a thread knows outlives the steps of the others. -/
theorem ok_of_effect (effect : (s.stage t).Effect s.pin pin) (other : u ≠ t) :
    (s.stage u).Ok pin := by
  obtain ⟨own, quiet, apart, again, lone⟩ := inv.stages
  refine (inv.ok u).stable (fun j mine => ?_) ?_ ?_ ?_ ?_
  · exact effect.slots j fun same => other (own u t j mine same)
  · by_cases registers : (s.stage t).registers = true
    · refine .inr ⟨apart t u registers, ?_⟩
      by_contra fails
      exact other (lone u t (by simpa using fails) registers)
    · exact .inl (effect.live (by simpa using registers))
  · by_cases registers : (s.stage u).registers = true
    · refine .inl (effect.gsi (apart u t registers) ?_)
      by_contra fails
      exact other (lone t u (by simpa using fails) registers).symm
    · exact .inr (by simpa using registers)
  · by_cases enables : (s.stage u).enables = true
    · exact .inl (effect.awaiting (quiet u t enables) fun i => again u t i enables)
    · exact .inr (by simpa using enables)
  · by_cases enables : (s.stage t).enables = true
    · exact .inr ⟨quiet t u enables, fun i => again t u i enables⟩
    · exact .inl (effect.enabled (by simpa using enables))

theorem ok_update (own : y.Ok pin) (effect : (s.stage t).Effect s.pin pin) (u : Fin k) :
    (update s.stage t y u).Ok pin := by
  rw [update_apply]
  split
  · exact own
  · exact inv.ok_of_effect effect ‹_›

theorem live_of_waits (waits : s.pin.Awaiting j ∨ ∃ u, s.stage u = .complete j false true) :
    s.pin.Live j := by
  rcases waits with await | ⟨u, again⟩
  · exact await.1
  · have own : Stage.Ok s.pin (.complete j false true) := again ▸ inv.ok u
    exact own.1 rfl

theorem justified_update (reason : (s.stage t).Reason s.pin y pin) :
    Justified ⟨pin, update s.stage t y⟩ where
  alive := by
    intro off j on
    rcases reason.alive off j on with serves | await | ⟨off, on, here, none⟩
    · exact .inr ⟨t, by simpa using serves⟩
    · exact .inl await
    · obtain ⟨u, serves⟩ := (inv.justified.alive off j on).resolve_left none
      refine .inr ⟨u, ?_⟩
      have other : u ≠ t := by
        rintro rfl
        exact here serves
      simpa [update_apply, other] using serves
  given := by
    intro j either
    dsimp only at either ⊢
    by_cases here : y.queues = some j
    · exact .inr ⟨t, by simpa using here⟩
    have before : s.pin.Awaiting j ∨ ∃ u, s.stage u = .complete j false true := by
      have waits := reason.waits j
      simp only [update_apply] at either
      grind
    rcases inv.justified.given j before with given | ⟨u, is⟩
    · refine .inl ((reason.keeps j given).resolve_right ?_)
      rintro (queued | ⟨mine, none, done⟩)
      · exact here queued
      -- only the thread itself works on its registration
      obtain ⟨u, again⟩ := either.resolve_left none
      have same : u = t := by
        by_contra other
        rw [update_apply, if_neg other] at again
        exact other (inv.stages.own u t j (by rw [again]; rfl) mine)
      simp only [same, Function.update_self] at again
      exact done again
    · by_cases same : u = t
      · exact .inl (reason.queue j (same ▸ is) (inv.live_of_waits before))
      · exact .inr ⟨u, by simpa [update_apply, same] using is⟩

/-- A completion that fails is taken only while no thread is going to enable the pin. -/
theorem enables_of_awaiting (at_ : s.stage t = .complete i false exchanged)
    (await : s.pin.Awaiting i) (u : Fin k) : (s.stage u).enables = false := by
  have own := inv.ok u
  have same := inv.stages.own u t i
  cases stage : s.stage u
  all_goals simp only [stage, at_, Stage.Ok] at own same
  all_goals grind

theorem stages_update (at_ : s.stage t = x)
    (ran : x.advance s.pin dispatching taken = some (pin, y)) :
    Stages ⟨pin, update s.stage t y⟩ := by
  have alone : ∀ i, x = .complete i false false →
      s.pin.Live i ∧ (s.pin.slots i).awaitingCompletion = true →
          ∀ u, (s.stage u).enables = false :=
    fun i is await => inv.enables_of_awaiting (at_.trans is) await
  cases x
  case' targets left => cases left
  case' complete i ok exchanged => cases exchanged
  case' register i a phase => cases phase
  case' unregister i ok unbound phase => cases phase
  all_goals simp only [Stage.advance] at ran
  all_goals (repeat' split at ran) <;> cases ran
  all_goals refine inv.stages.goes_on at_ ?_ ?_ ?_ ?_ ?_ ?_ ?_
  all_goals clear inv
  all_goals grind

theorem begins (idle : s.stage t = .idle) (orderly : s.Orderly (.start t operation)) :
    Inv ⟨s.pin, update s.stage t operation.first⟩ := by
  have effect : (s.stage t).Effect s.pin s.pin :=
    ⟨fun _ _ => .inl rfl, fun _ _ => id, fun _ _ => id, fun _ _ _ => id, fun _ => id⟩
  have first : operation.first.Ok s.pin := by
    cases operation
    all_goals simp only [System.Orderly, System.Calm] at orderly
    all_goals simp only [Operation.first, Stage.Ok]
    all_goals grind
  have reason : (s.stage t).Reason s.pin operation.first s.pin := by
    rw [idle]
    constructor
    all_goals cases operation
    all_goals grind [Operation.first]
  exact ⟨inv.stages.begins orderly, inv.ok_update first effect, inv.pinOk,
    inv.justified_update reason⟩

theorem step (orderly : s.Orderly e) (ran : e.exec s = some s') : Inv s' := by
  cases e with
  | start t operation =>
    obtain ⟨idle, ⟨⟩⟩ := Option.ite_none_right_eq_some.mp ran
    exact inv.begins idle orderly
  | step t taken =>
    obtain ⟨⟨pin, y⟩, next, rfl⟩ := Option.map_eq_some_iff.mp ran
    obtain ⟨own, pinOk⟩ := Stage.advance_ok next (inv.ok t) inv.pinOk
    exact ⟨inv.stages_update rfl next, inv.ok_update own (Stage.advance_effect next (inv.ok t)),
      pinOk,
      inv.justified_update (Stage.advance_reason next (inv.ok t) inv.pinOk.routed orderly)⟩

end Inv

instance Stage.Serves.decide (j : Fin n) : (x : Stage n) → Decidable (x.Serves j)
  | .targets left | .queue _ left => inferInstanceAs (Decidable (j ∈ left))
  | .complete i ok exchanged =>
    inferInstanceAs (Decidable (exchanged = true ∧ (ok = true ∨ i = j)))
  | .register _ _ phase =>
    inferInstanceAs
      (Decidable (phase = .route ∨ phase = .activate ∨ phase = .enable ∨ phase = .retract))
  | .idle | .leader | .mask | .unregister _ _ _ _ | .callHandler _ => .isFalse id

instance System.Calm.decide (s : System n k) (i : Fin n) : Decidable (s.Calm i) :=
  inferInstanceAs (Decidable (_ ∧ _))

instance System.Orderly.decide (s : System n k) : (e : Event n k) → Decidable (s.Orderly e)
  | .step _ _ => inferInstanceAs (Decidable (∀ _, _))
  | .start _ .interrupt => inferInstanceAs (Decidable (∀ _, _))
  | .start _ (.complete _ _) => inferInstanceAs (Decidable (_ ∧ _))
  | .start _ (.register _ _) => inferInstanceAs (Decidable (_ ∧ (_ → _ ∧ _)))
  | .start _ (.unregister _ _ _) => inferInstanceAs (Decidable (_ ∧ _))
  | .start _ (.dispatchEvent _) => .isTrue trivial

/-- Two threads register.  A third reports an interrupt while the second registration is given up,
the handler of the first is called, and the interrupt is completed. -/
def overlapping : List (Event 2 3) :=
  [.start 0 (.register 0 {}), .start 1 (.register 1 {}), .step 0 true, .step 1 true, .step 0 true,
  .step 0 true,
    .step 1 true, .step 1 true, .step 1 true, .step 0 true, .step 1 true, .step 0 true,
    .start 2 .interrupt, .step 2 true, .step 2 true, .start 1 (.unregister 1 true true),
    .step 2 true, .step 1 true,
    .step 1 true, .step 2 true, .start 0 (.dispatchEvent 0), .step 2 true, .step 0 true,
    .step 2 true, .step 1 true,
    .step 1 true, .start 0 (.complete 0 true), .step 0 true, .step 0 true]

/-- What one thread does from the start of an operation on. -/
def Operation.steps (operation : Operation n) (t : Fin k) (number : Nat) : List (Event n k) :=
  .start t operation :: List.replicate number (.step t true)

end Mecocoa.Gpio
