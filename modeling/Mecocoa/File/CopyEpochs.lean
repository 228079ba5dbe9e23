import Mecocoa.Lib.Holders
import Mecocoa.Lib.Run

/-! # Copies to user buffers while a page is flushed

`MccaMemCopyPPrepared` counts itself in the current one of two epochs before it looks at the
permissions of its buffer, and `WaitForSharedFileCopies` starts the other epoch and waits
until the first is empty.  The locks a flush holds let no second one and no
`ResolveSharedFileWrite` in; copies take no lock.  `none` as the result of a step means that
it is not possible.
-/

namespace Mecocoa.File

open Option

open Function (update update_self update_of_ne update_eq_self)
open Lib (holders Run)

/-- The page-table leaves of the pages of files, and the list that each page has of its own. -/
structure Leaves (α π : Type) where
  page : α → π
  aliases : π → List α
  complete : ∀ a, a ∈ aliases (page a)

/-- A copy that has the buffer `todo` left to look at, and when it found which leaf writable.  With
nothing left it copies. -/
inductive Copy (α : Type) where
  | idle
  | loaded (epoch : Nat) (todo : List α)
  | added (epoch : Nat) (todo : List α)
  | checking (epoch : Nat) (todo : List α) (checks : List (α × Nat))
  | leaving (epoch : Nat)
  deriving DecidableEq

/-- Where `FlushSharedFilePageWithCopyLock` is.  It waits for the copies of an epoch since a
moment. -/
inductive Flush (α π : Type) where
  | idle
  | protecting (page : π) (todo : List α)
  | waiting (page : π) (previous since : Nat)
  | drained (page : π) (since : Nat)
  deriving DecidableEq

structure Copies (κ α π : Type) where
  epoch : Nat
  activeUserCopies : Nat → Nat
  copy : κ → Copy α
  writable : α → Bool
  dirty : π → Bool
  flush : Flush α π
  -- What an observer's clock shows.
  clock : Nat

inductive CopyEvent (κ α π : Type) where
  | copy (c : κ) (buffer : List α)
  | step (c : κ)
  | resolve (a : α)
  | flush (page : π)
  | flushStep (succeeds : Bool)

variable {κ α π : Type}

/-- Before any copy, with no leaf writable. -/
def Copies.start : Copies κ α π where
  epoch := 0
  activeUserCopies := fun _ => 0
  copy := fun _ => .idle
  writable := fun _ => false
  dirty := fun _ => false
  flush := .idle
  clock := 0

section Steps

variable [DecidableEq κ] [DecidableEq α] [DecidableEq π] (leaves : Leaves α π)

namespace Copies

def setCopy (s : Copies κ α π) (c : κ) (copy : Copy α) : Copies κ α π :=
  { s with copy := update s.copy c copy }

def setActive (s : Copies κ α π) (epoch count : Nat) : Copies κ α π :=
  { s with activeUserCopies := update s.activeUserCopies (epoch % 2) count }

/-- One access of `MccaMemCopyPPrepared`.  A copy that found another epoch leaves and begins
again. -/
def copyStep (s : Copies κ α π) (c : κ) : Option (Copies κ α π) :=
  match s.copy c with
  | .idle => none
  | .loaded epoch todo =>
    some ((s.setActive epoch (s.activeUserCopies (epoch % 2) + 1)).setCopy c (.added epoch todo))
  | .added epoch todo =>
    some (s.setCopy c (if s.epoch = epoch then .checking epoch todo [] else .leaving epoch))
  | .checking epoch (a :: todo) checks =>
    some
      (s.setCopy c (if s.writable a then .checking epoch todo ((a, s.clock) :: checks)
      else .leaving epoch))
  | .checking epoch [] _ => some (s.setCopy c (.leaving epoch))
  | .leaving epoch =>
    some ((s.setActive epoch (s.activeUserCopies (epoch % 2) - 1)).setCopy c .idle)

/-- One access of a flush: `ProtectSharedFileAliases` may fail at a leaf, and the backend at the
end. The epoch is a word of `bits + 1` bits. -/
def flushStep (bits : Nat) (s : Copies κ α π) (succeeds : Bool) : Option (Copies κ α π) :=
  match s.flush with
  | .idle => none
  | .protecting page (a :: todo) =>
    if succeeds then some { s with
      writable := update s.writable a false, flush := .protecting page todo }
    else some { s with flush := .idle }
  | .protecting page [] =>
    some { s with epoch := (s.epoch + 1) % 2 ^ (bits + 1), flush := .waiting page s.epoch s.clock }
  | .waiting page previous since =>
    some (if s.activeUserCopies (previous % 2) = 0 then { s with flush := .drained page since }
      else s)
  | .drained page _ =>
    some { s with flush := .idle, dirty := if succeeds then update s.dirty page false else s.dirty }

end Copies

/-- One step of the system, and the clock goes on. -/
def CopyEvent.exec (bits : Nat) (s : Copies κ α π) (event : CopyEvent κ α π) :
    Option (Copies κ α π) :=
  Option.map (fun s => { s with clock := s.clock + 1 }) <| match event with
  | .copy c buffer => if s.copy c = .idle then some (s.setCopy c (.loaded s.epoch buffer)) else none
  | .step c => s.copyStep c
  | .resolve a =>
    if s.flush = .idle then
      some { s with
        dirty := update s.dirty (leaves.page a) true, writable := update s.writable a true }
    else none
  | .flush page =>
    if s.flush = .idle ∧
      s.dirty page then some { s with flush := .protecting page (leaves.aliases page) } else none
  | .flushStep succeeds => s.flushStep bits succeeds

end Steps

/-! ## The invariant -/

/-- Where a copy is counted. -/
def Copy.counted : Copy α → Option Nat
  | .added epoch _ | .checking epoch _ _ | .leaving epoch => some (epoch % 2)
  | _ => none

namespace Flush

/-- The page that is protected, and since when. -/
def protects : Flush α π → Option (π × Nat)
  | .waiting page _ since | .drained page since => some (page, since)
  | _ => none

/-- The epoch that is waited for. -/
def awaits : Flush α π → Option Nat
  | .waiting _ previous _ => some (previous % 2)
  | _ => none

end Flush

namespace Copies

variable (leaves : Leaves α π)

/-- The copy saw all permissions after the flush had taken them away from its page. -/
def Late (s : Copies κ α π) (checks : List (α × Nat)) : Prop :=
  ∀ page since, s.flush.protects = some (page, since) → ∀ x ∈ checks, since < x.2 ∧
  leaves.page x.1 ≠ page

/-- A copy that looks at permissions, or copies, is in the current epoch or in the one that is
waited for. -/
def CopyOk (s : Copies κ α π) : Copy α → Prop
  | .checking epoch _ checks =>
    (∀ x ∈ checks, s.dirty (leaves.page x.1) = true) ∧
      (s.flush.awaits = some (epoch % 2) ∨ epoch % 2 = s.epoch % 2 ∧ s.Late leaves checks)
  | _ => True

/-- The copies that each count counts. -/
structure Counts (counted : κ → Option Nat) (active : Nat → Nat) : Prop where
  finite : ∀ parity, (holders counted parity).Finite
  exact : ∀ parity, active parity = (holders counted parity).ncard

structure Inv (s : Copies κ α π) : Prop where
  counts : Counts (fun c => (s.copy c).counted) s.activeUserCopies
  copies : ∀ c, s.CopyOk leaves (s.copy c)
  marked : ∀ a, s.writable a = true → s.dirty (leaves.page a) = true
  protecting : ∀ page todo, s.flush = .protecting page todo → ∀ a, leaves.page a = page →
    a ∈ todo ∨ s.writable a = false
  locked : ∀ page since, s.flush.protects = some (page, since) →
    since < s.clock ∧ ∀ a, leaves.page a = page → s.writable a = false

namespace Inv

variable {leaves : Leaves α π} {s s' : Copies κ α π}

theorem start : Inv leaves (.start : Copies κ α π) where
  counts := by constructor <;> simp [holders, Copies.start, Copy.counted]
  copies := fun _ => trivial
  marked := fun _ is => (nomatch is)
  protecting := fun _ _ is => (nomatch is)
  locked := fun _ _ is => (nomatch is)

variable (inv : Inv leaves s)

include inv

theorem tick : Inv leaves { s with clock := s.clock + 1 } where
  counts := inv.counts
  copies := inv.copies
  marked := inv.marked
  protecting := inv.protecting
  locked := fun page since is =>
    ⟨Nat.lt_succ_of_lt (inv.locked page since is).1, (inv.locked page since is).2⟩

theorem counted_pos (is : (s.copy c).counted = some parity) : 0 < s.activeUserCopies parity := by
  rw [inv.counts.exact]
  exact (Set.ncard_pos (inv.counts.finite parity)).mpr ⟨c, is⟩

/-- Steps that no copy takes. -/
theorem each (keep : ∀ c epoch todo checks, s.copy c = .checking epoch todo checks →
      s.CopyOk leaves (.checking epoch todo checks) →
      s'.CopyOk leaves (.checking epoch todo checks)) (c : κ) :
    s'.CopyOk leaves (s.copy c) := by
  cases here : s.copy c with
  | checking epoch todo checks => exact keep c epoch todo checks here (here ▸ inv.copies c)
  | _ => trivial

variable [DecidableEq κ]

theorem setCopy
    (counts : Counts (update (fun c => (s.copy c).counted) c new.counted) active)
    (ok : s.CopyOk leaves new) :
    Inv leaves { s with activeUserCopies := active, copy := update s.copy c new } where
  counts := by
    have table : (fun d => (update s.copy c new d).counted) =
        update (fun c => (s.copy c).counted) c new.counted :=
      Function.comp_update Copy.counted s.copy c new
    exact table ▸ counts
  copies := by
    intro d
    dsimp only
    by_cases same : d = c
    · rw [same, update_self]
      exact ok
    · rw [update_of_ne same]
      exact inv.copies d
  marked := inv.marked
  protecting := inv.protecting
  locked := inv.locked

/-- One copy goes on and stays counted where it is. -/
theorem stay (same : new.counted = (s.copy c).counted) (ok : s.CopyOk leaves new) :
    Inv leaves (s.setCopy c new) :=
  inv.setCopy (by rw [same, update_eq_self]; exact inv.counts) ok

theorem copyStep (step : s.copyStep c = some s') : Inv leaves s' := by
  have ok := inv.copies c
  unfold Copies.copyStep at step
  cases here : s.copy c with
  | idle => simp [here] at step
  | loaded epoch todo =>
    simp only [here, some.injEq] at step
    subst step
    have free : (s.copy c).counted = none := by rw [here]; rfl
    refine inv.setCopy ⟨Lib.finite_holders_install inv.counts.finite free, fun parity => ?_⟩
      trivial
    rw [Copy.counted, Lib.ncard_holders_install inv.counts.finite free, ← inv.counts.exact]
    by_cases same : parity = epoch % 2
    · simp [setActive, same]
    · simp [setActive, same, Ne.symm same]
  | added epoch todo =>
    simp only [here, some.injEq] at step
    subst step
    refine inv.stay (by rw [here]; split <;> rfl) ?_
    split
    · rename_i same
      exact ⟨by simp, .inr ⟨by rw [same], by simp [Late]⟩⟩
    · trivial
  | leaving epoch =>
    simp only [here, some.injEq] at step
    subst step
    have held : (s.copy c).counted = some (epoch % 2) := by rw [here]; rfl
    refine inv.setCopy ⟨Lib.finite_holders_remove inv.counts.finite, fun parity => ?_⟩ trivial
    have count := Lib.ncard_holders_remove inv.counts.finite held parity
    rw [← inv.counts.exact] at count
    by_cases same : parity = epoch % 2
    · simp only [setActive, same, update_self, if_true] at count ⊢
      exact (Nat.eq_sub_of_add_eq count).symm
    · simpa [setActive, Copy.counted, same, Ne.symm same] using count.symm
  | checking epoch todo checks =>
    cases todo with
    | nil =>
      simp only [here, some.injEq] at step
      subst step
      exact inv.stay (by rw [here]; rfl) trivial
    | cons a todo =>
      simp only [here, some.injEq] at step
      subst step
      refine inv.stay (by rw [here]; split <;> rfl) ?_
      split
      · rename_i allowed
        rw [here] at ok
        refine ⟨List.forall_mem_cons.mpr ⟨inv.marked a allowed, ok.1⟩,
            ok.2.imp_right fun ⟨current, late⟩ =>
          ⟨current, fun page since is => List.forall_mem_cons.mpr
          ⟨?_, late page since is⟩⟩⟩
        -- The flush took the permission away from every leaf of its page.
        obtain ⟨past, locked⟩ := inv.locked page since is
        refine ⟨past, fun own => ?_⟩
        simp [locked a own] at allowed
      · trivial

omit [DecidableEq κ]

/-- A flush begins, takes a permission away or gives up. -/
theorem restage {writable} {flush}
    (before : s.flush.protects = none ∧ s.flush.awaits = none)
    (now : flush.protects = none ∧ flush.awaits = none)
    (less : ∀ a, writable a = true → s.writable a = true)
    (protecting : ∀ page todo, flush = .protecting page todo → ∀ a, leaves.page a = page →
      a ∈ todo ∨ writable a = false) :
    Inv leaves { s with writable := writable, flush := flush } where
  counts := inv.counts
  copies := by
    refine inv.each fun c epoch todo checks _ ok => ?_
    simpa [CopyOk, Late, before, now] using ok
  marked := fun a is => inv.marked a (less a is)
  protecting := protecting
  locked := by simp [now]

/-- The next epoch begins, and the copies of the last one are waited for. -/
theorem flip (stage : s.flush = .protecting page []) (epoch : Nat) : Inv leaves
    { s with epoch := epoch, flush := .waiting page s.epoch s.clock, clock := s.clock + 1 } where
  counts := inv.counts
  copies := by
    refine inv.each fun c epoch todo checks _ ok => ⟨ok.1, .inl ?_⟩
    have current :
      epoch % 2 = s.epoch % 2 := by simpa [stage, Flush.awaits] using ok.2.imp_right And.left
    simp [Flush.awaits, current]
  marked := inv.marked
  protecting := fun _ _ is => (nomatch is)
  locked := by
    rintro _ _ ⟨⟩
    exact ⟨Nat.lt_succ_self _,
      fun a is => (inv.protecting page [] stage a is).resolve_left List.not_mem_nil⟩

theorem drain (stage : s.flush = .waiting page previous since)
    (none : s.activeUserCopies (previous % 2) = 0) :
    Inv leaves { s with flush := .drained page since } where
  counts := inv.counts
  copies := by
    refine inv.each fun c epoch todo checks here ok => ⟨ok.1, .inr ?_⟩
    rcases ok.2 with awaited | late
    · rw [stage] at awaited
      have counted :=
        inv.counted_pos
          (show (s.copy c).counted = some (previous % 2) by rw [here]; exact awaited.symm)
      omega
    · simpa [Late, stage, Flush.protects] using late
  marked := inv.marked
  protecting := fun _ _ is => (nomatch is)
  locked := by
    have locked := inv.locked
    rwa [stage] at locked

/-- A write to a page that is not writable yet. -/
theorem resolve [DecidableEq α] [DecidableEq π] (idle : s.flush = .idle) (a : α) : Inv leaves
    { s with
      dirty := update s.dirty (leaves.page a) true, writable := update s.writable a true } where
  counts := inv.counts
  copies := by
    refine inv.each fun c epoch todo checks _ ok => ⟨fun x there => ?_, ok.2⟩
    by_cases same : leaves.page x.1 = leaves.page a
    · simp [same]
    · simpa [same] using ok.1 x there
  marked := by
    intro b is
    by_cases same : leaves.page b = leaves.page a
    · simp [same]
    · have other : b ≠ a := fun eq => same (congrArg leaves.page eq)
      simpa [same] using inv.marked b (by simpa [other] using is)
  protecting := by simp [idle]
  locked := by simp [idle, Flush.protects]

theorem finish [DecidableEq π] (stage : s.flush = .drained page since) (succeeds : Bool) :
    Inv leaves
    { s with flush := .idle, dirty := if succeeds then update s.dirty page false
      else s.dirty } where
  counts := inv.counts
  copies := by
    refine inv.each fun c epoch todo checks _ ok => ?_
    obtain ⟨dirty, late⟩ := ok
    obtain ⟨current, late⟩ := late.resolve_left (by simp [stage, Flush.awaits])
    refine ⟨fun x there => ?_, .inr ⟨current, fun _ _ is => (nomatch is)⟩⟩
    have other := (late page since (by rw [stage]; rfl) x there).2
    cases succeeds with
    | false => exact dirty x there
    | true => simpa [other] using dirty x there
  marked := by
    intro a is
    have dirty := inv.marked a is
    cases succeeds with
    | false => exact dirty
    | true =>
      have other : leaves.page a ≠ page := by
        intro own
        simp [(inv.locked page since (by rw [stage]; rfl)).2 a own] at is
      simpa [other] using dirty
  protecting := fun _ _ is => (nomatch is)
  locked := fun _ _ is => (nomatch is)

theorem flushStep [DecidableEq α] [DecidableEq π] {bits} {succeeds}
    (step : s.flushStep bits succeeds = some s') :
    Inv leaves { s' with clock := s'.clock + 1 } := by
  unfold Copies.flushStep at step
  cases stage : s.flush with
  | idle => simp [stage] at step
  | protecting page todo =>
    cases todo with
    | nil =>
      simp only [stage, some.injEq] at step
      subst step
      exact inv.flip stage _
    | cons a todo =>
      simp only [stage] at step
      split at step
      · cases step
        refine (inv.restage (by simp [stage, Flush.protects, Flush.awaits]) ⟨rfl, rfl⟩
          (fun b is => ?_) ?_).tick
        · by_cases same : b = a
          · simp [same] at is
          · simpa [same] using is
        · rintro _ _ ⟨⟩ b is
          by_cases same : b = a
          · exact .inr (by simp [same])
          · simpa [same] using inv.protecting page _ stage b is
      · cases step
        exact (inv.restage (by simp [stage, Flush.protects, Flush.awaits]) ⟨rfl, rfl⟩
          (fun _ => id) (by simp)).tick
  | waiting page previous since =>
    simp only [stage, some.injEq] at step
    subst step
    split
    · rename_i none
      exact (inv.drain stage none).tick
    · exact inv.tick
  | drained page since =>
    simp only [stage, some.injEq] at step
    subst step
    exact (inv.finish stage succeeds).tick

theorem exec [DecidableEq κ] [DecidableEq α] [DecidableEq π] {bits : Nat}
    {event : CopyEvent κ α π} (step : event.exec leaves bits s = some s') : Inv leaves s' := by
  obtain ⟨s₁, taken, rfl⟩ := map_eq_some_iff.mp step
  cases event with
  | copy c buffer =>
    obtain ⟨idle, ⟨⟩⟩ := ite_none_right_eq_some.mp taken
    have next : Inv leaves (s.setCopy c (.loaded s.epoch buffer)) :=
      inv.stay (by rw [idle]; rfl) trivial
    exact next.tick
  | step c => exact (inv.copyStep taken).tick
  | resolve a =>
    obtain ⟨idle, ⟨⟩⟩ := ite_none_right_eq_some.mp taken
    exact (inv.resolve idle a).tick
  | flush page =>
    obtain ⟨⟨idle, _⟩, ⟨⟩⟩ := ite_none_right_eq_some.mp taken
    refine (inv.restage (by simp [idle, Flush.protects, Flush.awaits])
      ⟨rfl, rfl⟩ (fun _ => id) ?_).tick
    rintro _ _ ⟨⟩ a is
    exact .inl (is ▸ leaves.complete a)
  | flushStep succeeds => exact inv.flushStep taken

end Inv

end Copies

variable [DecidableEq κ] [DecidableEq α] [DecidableEq π]

/-- When the wait of a flush is over, each copy that still runs looked at its permissions after the
flush had taken them from the whole page, and found leaves of other pages only.  No leaf of the
page becomes writable meanwhile, and no copy that may write a page runs when it is clean. -/
theorem drained_of_waitForSharedFileCopies (leaves : Leaves α π) (bits : Nat)
    {events : List (CopyEvent κ α π)} {s : Copies κ α π}
    (run : Run (fun s event s' => event.exec leaves bits s = some s') .start events s) :
    (∀ page since, s.flush = .drained page since →
      ∀ c epoch todo checks, s.copy c = .checking epoch todo checks →
      ∀ x ∈ checks, since < x.2 ∧ leaves.page x.1 ≠ page) ∧
    (∀ page previous since, s.flush = .waiting page previous since ∨
      s.flush = .drained page since →
      since < s.clock ∧ ∀ a, leaves.page a = page → s.writable a = false) ∧
    ∀ page, s.dirty page = false →
      ∀ c epoch todo checks, s.copy c = .checking epoch todo checks →
      ∀ x ∈ checks, leaves.page x.1 ≠ page := by
  have inv : s.Inv leaves := run.preserves (fun _ _ _ inv step => inv.exec step) .start
  have ok {c epoch todo checks} (here : s.copy c = .checking epoch todo checks) :
      s.CopyOk leaves (.checking epoch todo checks) := here ▸ inv.copies c
  refine ⟨?_, ?_, ?_⟩
  · intro page since stage c epoch todo checks here
    have late := (ok here).2.resolve_left (by simp [stage, Flush.awaits])
    exact late.2 page since (by rw [stage]; rfl)
  · rintro page previous since (stage | stage)
    · exact inv.locked page since (by rw [stage]; rfl)
    · exact inv.locked page since (by rw [stage]; rfl)
  · rintro page clean c epoch todo checks here x there rfl
    simp [(ok here).1 x there] at clean

/-- The first copy finds a leaf of the first page writable and is waited for; the second one starts
meanwhile and goes on in the next epoch. -/
theorem drained_of_waitForSharedFileCopies_two :
    let leaves : Leaves Bool Bool :=
      ⟨id, fun page => [page], fun _ => List.mem_singleton.mpr rfl⟩
    let events : List (CopyEvent Bool Bool Bool) :=
      [.resolve false, .resolve true, .copy false [false],
      .step false, .step false, .step false, .flush false, .flushStep true, .flushStep true,
      .copy true [true],
      .step true, .step true, .flushStep true, .step true, .step false, .step false,
      .flushStep true]
    ∃ s, Run (fun s event s' => event.exec leaves 31 s = some s') .start events s ∧
      s.flush = .drained false 8 ∧ s.copy true = .checking 1 [] [(true, 13)] ∧ 8 < 13 ∧
      true ≠ false := by
  intro leaves events
  obtain ⟨s, run, stage, here⟩ :
    ∃ s, Run (fun s event s' => event.exec leaves 31 s = some s') .start events s ∧
      s.flush = .drained false 8 ∧
      s.copy true = .checking 1 [] [(true, 13)] := Run.exists_decide (by decide +kernel)
  exact ⟨s, run, stage, here,
    (drained_of_waitForSharedFileCopies leaves 31 run).1 false 8 stage true 1 [] _ here (true, 13)
    (by simp)⟩

end Mecocoa.File
