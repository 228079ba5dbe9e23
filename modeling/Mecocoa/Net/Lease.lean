import Mecocoa.Lib.Run

/-! # The lease of an address

What an answer of the server sets, and the timer pass that asks for the address again and
gives it up.  The client object is the library's: a pass comes with what it and the link
answer.  `stduint` counts modulo `word`.
-/

namespace Mecocoa.Net

open Lib (Run)

abbrev IPv4Address := BitVec 32

def sysTickFreq : Nat := 100
def netDhcpRetryTicks : Nat := 5 * sysTickFreq
def netDhcpRetryLimit : Nat := 6
def netStaticIPv4Address : IPv4Address := 0x0A00020F

/-- `DHCPClientConfig`; `none` where the message has no such option. -/
structure DhcpConfig where
  address : Option IPv4Address
  hasNetmask : Bool
  leaseTime : Option Nat

inductive DhcpMessage where
  | offer (config : DhcpConfig)
  | ack (config : DhcpConfig)
  | nak
  | other

inductive ClientState where
  | discovering | offered | requesting | other
  deriving DecidableEq

/-- What the client object says, and which packets go out: a repeated one, a request, a
discovery. -/
structure Answers where
  state : ClientState
  retry : Bool
  request : Bool
  discover : Bool

/-- A lease that an acknowledgment granted; `passed` once a timer pass came at or after its end. -/
structure Lease where
  address : IPv4Address
  start : Nat
  seconds : Option Nat
  passed : Bool := false
  deriving DecidableEq

def Lease.ended (now : Nat) (lease : Lease) : Bool :=
  lease.seconds.any fun seconds => lease.start + seconds * sysTickFreq ≤ now

theorem Lease.ended_iff {lease : Lease} : lease.ended now = true ↔
    ∃ seconds ∈ lease.seconds, lease.start + seconds * sysTickFreq ≤ now := by
  unfold Lease.ended
  cases lease.seconds <;> simp

structure Dhcp where
  client : Bool := true
  address : IPv4Address := netStaticIPv4Address
  leaseTime : Nat := 0
  lastTick : Nat := 0
  retryCount : Nat := 0
  boundTick : Nat := 0
  renewStarted : Bool := false
  rebindStarted : Bool := false
  -- What an observer notes: the leases, the last one first.
  leases : List Lease := []

namespace Dhcp

/-- `ResetDhcpClient`, and `StartDhcpDiscovery` where there is a client object. -/
def restart (s : Dhcp) : Dhcp :=
  { s with
  lastTick := 0, retryCount := 0, boundTick := 0, renewStarted := false, rebindStarted := false }

def applyStaticIPv4Config (s : Dhcp) : Dhcp :=
  { s with address := netStaticIPv4Address, leaseTime := 0 }.restart

/-- `SendDhcpDiscover` and `SendDhcpRequest`. -/
def send (tick : Nat) (sent : Bool) (s : Dhcp) : Dhcp :=
  if sent then { s with lastTick := tick, retryCount := s.retryCount + 1 } else s

def hasDhcpRetryPending (state : ClientState) (s : Dhcp) : Bool :=
  s.client && s.retryCount < netDhcpRetryLimit && state ≠ .other

def processDhcpRetryTimer (word tick : Nat) (a : Answers) (s : Dhcp) : Dhcp :=
  if s.hasDhcpRetryPending a.state = false then s
  else if s.lastTick ≠ 0 ∧ (tick + word - s.lastTick) % word < netDhcpRetryTicks then s
  else s.send tick a.retry

def dhcpLeaseTicks (word : Nat) (s : Dhcp) : Nat := s.leaseTime * sysTickFreq % word
def dhcpT1Ticks (word : Nat) (s : Dhcp) : Nat := s.dhcpLeaseTicks word / 2
def dhcpT2Ticks (word : Nat) (s : Dhcp) : Nat := s.dhcpLeaseTicks word * 7 % word / 8

def processDhcpLeaseTimer (word tick : Nat) (a : Answers) (s : Dhcp) : Dhcp :=
  let ageTicks := (tick + word - s.boundTick) % word
  if s.client = false ∨ s.boundTick = 0 ∨ s.leaseTime = 0 then s
  else if s.dhcpLeaseTicks word ≠ 0 ∧ s.dhcpLeaseTicks word ≤ ageTicks then
    s.applyStaticIPv4Config.restart.send tick a.discover
  else if s.rebindStarted = false ∧ s.dhcpT2Ticks word ≠ 0 ∧
      s.dhcpT2Ticks word ≤ ageTicks then
    s.restart.send tick a.discover
  else if s.renewStarted = false ∧ s.dhcpT1Ticks word ≠ 0 ∧
      s.dhcpT1Ticks word ≤ ageTicks then
    if a.request then { s with renewStarted := true, lastTick := 0, retryCount := 0 }.send tick true
    else s.restart.send tick a.discover
  else s

/-- `HandleDhcpClientDatagram`, for a message that the client object accepts. -/
def handleDhcpClientDatagram (tick : Nat) (request : Bool) (s : Dhcp) : DhcpMessage → Dhcp
  | .offer config => { s with leaseTime := config.leaseTime.getD 0 }.send tick request
  | .ack config =>
    let s := { s with leaseTime := config.leaseTime.getD 0 }
    match config.address, config.hasNetmask with
    | some address, true =>
      { s.restart with
        address := if address = 0 then s.address else address
        boundTick := tick }
    | _, _ => s
  | .nak | .other => s

def noteMessage (now : Nat) (message : DhcpMessage) (s : Dhcp) : Dhcp :=
  match message with
  | .ack ⟨some address, true, seconds⟩ =>
    { s with leases := { address, start := now, seconds } :: s.leases }
  | _ => s

def notePass (now : Nat) (s : Dhcp) : Dhcp :=
  { s with
  leases := s.leases.map fun lease => { lease with passed := lease.passed || lease.ended now } }

end Dhcp

inductive DhcpEvent where
  | message (now : Nat) (request : Bool) (message : DhcpMessage)
  /-- What `ProcessNetTimers` does for the lease. -/
  | timers (now : Nat) (answers : Answers)

def DhcpEvent.exec (word : Nat) (s : Dhcp) : DhcpEvent → Option Dhcp
  | .message now request answer =>
    if s.client then some
      ((s.handleDhcpClientDatagram (now % word) request answer).noteMessage now answer) else none
  | .timers now answers =>
    some
      (((s.processDhcpRetryTimer word (now % word) answers).processDhcpLeaseTimer word (now % word)
      answers).notePass now)

/-- What the message says about the lease does not make the running one longer. -/
def NotLonger (s : Dhcp) (config : DhcpConfig) : Prop :=
  s.boundTick ≠ 0 → ∀ lease ∈ s.leases.head?, ∀ seconds ∈ lease.seconds,
    ∃ named ∈ config.leaseTime, 0 < named ∧ named ≤ seconds

/-- A pass at or after the end of a lease finds its clock running, and the messages do not spoil the
lease: an acknowledgment does not name the static address, names 0 only where no lease is to be
renewed, and its lease is not empty and fits in a word. -/
def Undisturbed (word : Nat) (s : Dhcp) : DhcpEvent → Prop
  | .message _ _ (.ack config) =>
    match config.address, config.hasNetmask with
    | some address, true => address ≠ netStaticIPv4Address ∧
      (address = 0 → s.address = netStaticIPv4Address) ∧
        ∀ seconds ∈ config.leaseTime, 0 < seconds ∧ seconds * sysTickFreq < word
    | _, _ => NotLonger s config
  | .message _ _ (.offer config) => NotLonger s config
  | .message .. => True
  | .timers now _ => ∀ lease ∈ s.leases.head?, s.address = lease.address →
    lease.ended now = true →
      s.boundTick ≠ 0 ∧ now < lease.start + word

/-- The address is the static one or that of the last lease, whose clock runs as it was granted
unless it is forgotten. -/
structure LeaseKept (word : Nat) (s : Dhcp) : Prop where
  configured : s.address = netStaticIPv4Address ∨ ∃ lease ∈ s.leases.head?,
    s.address = lease.address
  foreign : ∀ lease ∈ s.leases, lease.address ≠ netStaticIPv4Address
  gone : ∀ lease ∈ s.leases.head?, lease.passed = true → s.address ≠ lease.address
  client : s.boundTick ≠ 0 → s.client = true
  clock : s.boundTick ≠ 0 → ∀ lease ∈ s.leases.head?, s.boundTick = lease.start % word ∧
    ∀ seconds ∈ lease.seconds, 0 < s.leaseTime ∧ s.leaseTime ≤ seconds ∧
    seconds * sysTickFreq < word

/-- The retry timer sends, and leaves the lease alone. -/
theorem processDhcpRetryTimer_eq (s : Dhcp) (word tick : Nat) (a : Answers) :
    ∃ lastTick retryCount,
      s.processDhcpRetryTimer word tick a = { s with lastTick, retryCount } := by
  unfold Dhcp.processDhcpRetryTimer
  split
  · exact ⟨_, _, rfl⟩
  split
  · exact ⟨_, _, rfl⟩
  · cases a.retry <;> exact ⟨_, _, rfl⟩

/-- A pass lets the clock run or forgets it, and keeps the address or takes the static one. -/
theorem processDhcpLeaseTimer_frame (s : Dhcp) (word tick : Nat) (a : Answers) :
    let s' := s.processDhcpLeaseTimer word tick a
    s'.client = s.client ∧ s'.leases = s.leases ∧
      (s'.address = s.address ∨ s'.address = netStaticIPv4Address) ∧
      (s'.boundTick = 0 ∨ s'.boundTick = s.boundTick ∧ s'.leaseTime = s.leaseTime) := by
  unfold Dhcp.processDhcpLeaseTimer Dhcp.applyStaticIPv4Config Dhcp.restart Dhcp.send
  grind

/-- The age of a lease, also when the ticks have wrapped. -/
theorem age_ticks {start now word : Nat} (begun : start ≤ now) (within : now < start + word) :
    (now % word + word - start % word) % word = now - start := by
  obtain ⟨age, rfl⟩ := Nat.exists_eq_add_of_le begun
  have small : start % word < word := Nat.mod_lt _ (by omega)
  have now : (start + age) % word = (start % word + age) % word := by rw [Nat.mod_add_mod]
  rw [now]
  by_cases wraps : start % word + age < word
  · rw [Nat.mod_eq_of_lt wraps, show start % word + age + word - start % word =
      age + word by omega,
      Nat.add_mod_right, Nat.mod_eq_of_lt (by omega)]
    omega
  · have wrapped : (start % word + age) % word = start % word + age - word := by
      rw [Nat.mod_eq_sub_mod (by omega), Nat.mod_eq_of_lt (by omega)]
    rw [wrapped, show start % word + age - word + word - start % word = age by omega,
      Nat.mod_eq_of_lt (by omega)]
    omega

namespace LeaseKept

variable (kept : LeaseKept word s)

include kept

/-- A pass at or after the end of the lease takes the static address. -/
theorem lease_ends (last : lease ∈ s.leases.head?) (ended : lease.ended now = true)
    (running : s.boundTick ≠ 0) (within : now < lease.start + word) :
    (s.processDhcpLeaseTimer word (now % word) a).address = netStaticIPv4Address := by
  obtain ⟨seconds, granted, late⟩ := Lease.ended_iff.mp ended
  obtain ⟨bound, clock⟩ := kept.clock running lease last
  obtain ⟨some, upTo, small⟩ := clock seconds granted
  have short : s.leaseTime * sysTickFreq ≤ seconds * sysTickFreq := Nat.mul_le_mul_right _ upTo
  have ticks : s.dhcpLeaseTicks word = s.leaseTime * sysTickFreq := Nat.mod_eq_of_lt (by omega)
  have positive : 0 < s.leaseTime * sysTickFreq := Nat.mul_pos some (by decide)
  have age := age_ticks (show lease.start ≤ now by omega) within
  unfold Dhcp.processDhcpLeaseTimer
  rw [if_neg (by simp [kept.client running, running, some.ne']), ticks, bound, age,
    if_pos ⟨positive.ne', by omega⟩]
  cases a.discover <;> rfl

theorem leaseTimer (calm : Undisturbed word s (.timers now a)) :
    LeaseKept word ((s.processDhcpLeaseTimer word (now % word) a).notePass now) := by
  have ends : ∀ lease ∈ s.leases.head?, s.address = lease.address → lease.ended now = true →
      (s.processDhcpLeaseTimer word (now % word) a).address = netStaticIPv4Address := by
    intro lease last held ended
    obtain ⟨running, within⟩ := calm lease last held ended
    exact kept.lease_ends last ended running within
  obtain ⟨client, leases, address, clock⟩ := processDhcpLeaseTimer_frame s word (now % word) a
  obtain ⟨configured, foreign, gone, clientBefore, clockBefore⟩ := kept
  cases list : s.leases with
  | nil =>
    simp only [list, List.head?_nil, Option.mem_def, reduceCtorEq, false_and, exists_false,
      or_false] at configured
    constructor <;> simp only [Dhcp.notePass, leases, list, List.map_nil] <;> grind
  | cons lease earlier =>
    simp only [list, List.head?_cons, Option.mem_def, Option.some.injEq, exists_eq_left',
      forall_eq', List.forall_mem_cons]
      at configured foreign gone clockBefore ends
    constructor <;> simp only [Dhcp.notePass, leases, list, List.map_cons, List.head?_cons,
      Option.mem_def,
      Option.some.injEq, exists_eq_left', forall_eq'] <;> grind

theorem timers (calm : Undisturbed word s (.timers now a))
    (ran : (DhcpEvent.timers now a).exec word s = some s') : LeaseKept word s' := by
  obtain ⟨lastTick, retryCount, eq⟩ := processDhcpRetryTimer_eq s word (now % word) a
  have kept : LeaseKept word { s with lastTick, retryCount } :=
    ⟨kept.configured, kept.foreign, kept.gone, kept.client, kept.clock⟩
  cases ran
  rw [eq]
  exact kept.leaseTimer calm

theorem send (sent : Bool) : LeaseKept word (s.send tick sent) := by
  cases sent <;> exact ⟨kept.configured, kept.foreign, kept.gone, kept.client, kept.clock⟩

/-- The client takes the seconds of the message for those of the running lease. -/
theorem setLease (calm : NotLonger s config) :
    LeaseKept word { s with leaseTime := config.leaseTime.getD 0 } := by
  refine ⟨kept.configured, kept.foreign, kept.gone, kept.client, fun running lease last => ?_⟩
  obtain ⟨bound, clock⟩ := kept.clock running lease last
  refine ⟨bound, fun seconds granted => ?_⟩
  obtain ⟨named, is, lower⟩ := calm running lease last seconds granted
  rw [Option.mem_def.mp is]
  exact ⟨lower.1, lower.2, (clock seconds granted).2.2⟩

theorem message (calm : Undisturbed word s (.message now request answer))
    (ran : (DhcpEvent.message now request answer).exec word s = some s') : LeaseKept word s' := by
  obtain ⟨client, ⟨⟩⟩ := Option.ite_none_right_eq_some.mp ran
  cases answer with
  | offer config => exact (kept.setLease calm).send request
  | ack config =>
    obtain ⟨_ | address, _ | _, seconds⟩ := config
    · exact kept.setLease calm
    · exact kept.setLease calm
    · exact kept.setLease calm
    obtain ⟨foreign, zero, lease⟩ := calm
    refine ⟨?_, List.forall_mem_cons.mpr ⟨foreign, kept.foreign⟩, ?_, fun _ => client,
      fun _ => ?_⟩
    · by_cases none : address = 0
      · exact .inl ((if_pos none).trans (zero none))
      · exact .inr ⟨_, rfl, if_neg none⟩
    · rintro _ ⟨⟩ ⟨⟩
    · rintro _ ⟨⟩
      refine ⟨rfl, fun named is => ?_⟩
      obtain ⟨some, small⟩ := lease named is
      obtain rfl : seconds = Option.some named := is
      exact ⟨some, le_rfl, small⟩
  | nak | other => exact kept

theorem step (calm : Undisturbed word s e) (ran : e.exec word s = some s') : LeaseKept word s' := by
  cases e with
  | message now request answer => exact kept.message calm ran
  | timers now a => exact kept.timers calm ran

end LeaseKept

/-- Once a timer pass has come at or after the end of a lease, its address is not configured any
more, unless a later acknowledgment named it again. -/
theorem address_given_up {events : List DhcpEvent}
    (run : Run (Run.Guarded (Undisturbed word) (fun s e => e.exec word s)) {} events s)
    (granted : s.leases = later ++ lease :: earlier)
    (last : ∀ renewed ∈ later, renewed.address ≠ lease.address)
    (passed : lease.passed = true) : s.address ≠ lease.address := by
  have start : LeaseKept word {} := ⟨.inl rfl, by simp, by simp, by simp, by simp⟩
  have kept : LeaseKept word s :=
    run.preserves (fun _ _ _ kept step => kept.step step.1 step.2) start
  obtain ⟨configured, foreign, gone, -, -⟩ := kept
  rw [granted] at configured foreign gone
  cases later with
  | nil => exact gone lease rfl passed
  | cons head later =>
    rcases configured with static | ⟨_, ⟨⟩, leased⟩
    · rw [static]
      exact (foreign lease (by simp)).symm
    · rw [leased]
      exact last head (.head _)

/-- An address for eight seconds. -/
def eightSeconds : DhcpConfig := ⟨some 0x0A000263, true, some 8⟩

/-- The server does not answer. -/
def unanswered : Answers := ⟨.other, false, true, true⟩

/-- The requests at half of the lease and in its last eighth come to nothing; an offer and an
acknowledgment are in time all the same, and nothing is heard after that. -/
def rebound : List DhcpEvent :=
  [.message 100 true (.ack eightSeconds), .timers 550 unanswered, .timers 800 unanswered,
    .message 810 true (.offer eightSeconds), .message 820 true (.ack eightSeconds),
    .timers 1250 unanswered,
    .timers 1620 unanswered]

instance NotLonger.decide (s : Dhcp) (config : DhcpConfig) : Decidable (NotLonger s config) := by
  unfold NotLonger
  infer_instance

instance Undisturbed.decide (word : Nat) (s : Dhcp) (e : DhcpEvent) :
    Decidable (Undisturbed word s e) := by
  unfold Undisturbed
  split
  · split <;> infer_instance
  all_goals infer_instance

theorem address_given_up_rebound :
    ∃ s, Run (Run.Guarded (Undisturbed (2 ^ 32)) fun s e => e.exec (2 ^ 32) s) {}
    rebound s ∧ s.leases.length = 2 ∧ s.address ≠ 0x0A000263 := by
  obtain ⟨s, run, leases⟩ :
    ∃ s, Run (Run.Guarded (Undisturbed (2 ^ 32)) fun s e => e.exec (2 ^ 32) s) {} rebound s ∧
      s.leases = [] ++ ⟨0x0A000263, 820, some 8, true⟩ ::
          [⟨0x0A000263, 100, some 8, true⟩] :=
    Run.exists_guarded (by decide +kernel)
  exact ⟨s, run, congrArg List.length leases, address_given_up run leases (by simp) rfl⟩

/-- The pass at seven eighths of the lease restarts the client, which forgets when the lease ends.
A lease of no seconds does not end, and that of the static address ends to no effect. -/
theorem address_kept_after_lease :
    (∃ s, Run (fun s e s' => DhcpEvent.exec (2 ^ 32) s e = some s') {}
      [.message 100 true (.ack eightSeconds), .timers 800 unanswered, .timers 900 unanswered] s ∧
        ∃ lease, s.leases = [lease] ∧ lease.passed = true ∧ s.address = lease.address) ∧
    ∀ config ∈ [⟨some 0x0A000263, true, some 0⟩,
      ⟨some netStaticIPv4Address, true, some 8⟩],
      ∃ s, Run (fun s e s' => DhcpEvent.exec (2 ^ 32) s e = some s') {}
        [.message 100 true (.ack config), .timers 900 unanswered] s ∧
          ∃ lease, s.leases = [lease] ∧ lease.passed = true ∧ s.address = lease.address := by
  refine ⟨⟨_, .cons rfl (.cons rfl (.cons rfl (.nil _))), _, rfl, rfl, rfl⟩, ?_⟩
  simp only [List.forall_mem_cons, List.not_mem_nil, false_implies, implies_true, and_true]
  exact ⟨⟨_, .cons rfl (.cons rfl (.nil _)), _, rfl, rfl, rfl⟩,
    ⟨_, .cons rfl (.cons rfl (.nil _)), _, rfl, rfl, rfl⟩⟩

end Mecocoa.Net
