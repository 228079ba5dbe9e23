import Mathlib.Tactic

/-! # Runs of a labelled step relation

The two induction rules every whole-run result is obtained from: a property kept
by each step holds wherever a run ends, and a step-wise simulation extends to
the whole list of labels.
-/

namespace Mecocoa.Lib

variable {σ α τ : Type*}

variable {f : σ → α → Option σ} {P : σ → Prop}

/-- `Run step s as s'`: the labels `as` lead from `s` to `s'`. -/
inductive Run (step : σ → α → σ → Prop) : σ → List α → σ → Prop where
  | nil (s : σ) : Run step s [] s
  | cons {s mid s' : σ} {a : α} {as : List α} : step s a mid → Run step mid as s' →
    Run step s (a :: as) s'

namespace Run

theorem foldl (f : σ → α → σ) (s : σ) (as : List α) :
    Run (fun s a s' => f s a = s') s as (as.foldl f s) := by
  induction as generalizing s with
  | nil => exact .nil s
  | cons a as ih => exact .cons rfl (ih (f s a))

theorem of_foldlM : ∀ {as : List α} {s s' : σ}, as.foldlM f s = some s' →
    Run (fun s a s' => f s a = some s') s as s' := by
  intro as
  induction as with
  | nil =>
    intro s s' ran
    cases ran
    exact .nil s
  | cons a as ih =>
    intro s s' ran
    rw [List.foldlM_cons] at ran
    obtain ⟨mid, first, rest⟩ := Option.bind_eq_some_iff.mp ran
    exact .cons first (ih rest)

theorem exists_of_any (ends : (as.foldlM f s).any p = true) :
    ∃ s', Run (fun s a s' => f s a = some s') s as s' ∧ p s' = true := by
  cases ran : as.foldlM f s with
  | none => simp [ran] at ends
  | some s' => exact ⟨s', of_foldlM ran, by simpa [ran] using ends⟩

/-- A run that can be computed, to a state with a property that can be decided. -/
theorem exists_decide [DecidablePred P]
    (ends : (as.foldlM f s).any (fun s => decide (P s)) = true) :
    ∃ s', Run (fun s a s' => f s a = some s') s as s' ∧ P s' := by
  obtain ⟨s', run, holds⟩ := exists_of_any ends
  exact ⟨s', run, of_decide_eq_true holds⟩

theorem snoc (run : Run step s as mid) (last : step mid a s') : Run step s (as ++ [a]) s' := by
  induction run with
  | nil s => exact .cons last (.nil s')
  | cons first _ ih => exact .cons first (ih last)

theorem mono (weaken : ∀ s a s', step s a s' → step' s a s')
    (run : Run step s as s') : Run step' s as s' := by
  induction run with
  | nil s => exact .nil s
  | cons first _ ih => exact .cons (weaken _ _ _ first) ih

/-- A step that is taken only where it meets a condition. -/
def Guarded (ok : σ → α → Prop) (f : σ → α → Option σ) (s : σ) (a : α) (s' : σ) :
    Prop :=
  ok s a ∧ f s a = some s'

def guarded (ok : σ → α → Prop) [∀ s a, Decidable (ok s a)] (f : σ → α → Option σ)
    (s : σ) (a : α) : Option σ :=
  if ok s a then f s a else none

/-- A run that can be computed, to a state that can be tested. -/
theorem exists_guarded [∀ s a, Decidable (ok s a)]
    [DecidablePred P] (ends : (as.foldlM (guarded ok f) s).any (fun s => decide (P s)) = true) :
    ∃ s', Run (Guarded ok f) s as s' ∧ P s' := by
  obtain ⟨s', run, holds⟩ := exists_decide ends
  refine ⟨s', run.mono fun s a s' eq => ?_, holds⟩
  unfold guarded at eq
  split at eq
  · rename_i met
    exact ⟨met, eq⟩
  · cases eq

theorem preserves (keep : ∀ s a s', P s → step s a s' → P s')
    (run : Run step s as s') (start : P s) : P s' := by
  induction run with
  | nil => exact start
  | cons first _ ih => exact ih (keep _ _ _ start first)

/-- Preservation along runs whose labels all satisfy a side condition. -/
theorem preserves_when {C : α → Prop} (keep : ∀ s a s', C a → P s → step s a s' → P s')
    (run : Run step s as s') (labels : ∀ a ∈ as, C a) (start : P s) : P s' := by
  induction run with
  | nil => exact start
  | cons first _ ih =>
    exact ih (fun b member => labels b (.tail _ member))
      (keep _ _ _ (labels _ (.head _)) start first)

/-- A simulation through `view`, valid under an invariant, maps a run to the
fold of the abstract steps. -/
theorem simulates (view : σ → τ) (f : τ → α → τ)
    (sim : ∀ s a s', P s → step s a s' → P s' ∧ view s' = f (view s) a)
    (run : Run step s as s') (start : P s) : P s' ∧ view s' = as.foldl f (view s) := by
  induction run with
  | nil => exact ⟨start, rfl⟩
  | cons first _ ih =>
    obtain ⟨next, same⟩ := sim _ _ _ start first
    obtain ⟨last, rest⟩ := ih next
    exact ⟨last, by rw [rest, same]; rfl⟩

end Run

variable {β : Type*}

/-- What an observer notes along the steps of a function. -/
def trace (f : σ → α → σ) (note : σ → α → β) : σ → List α → List β
  | _, [] => []
  | s, a :: as => note s a :: trace f note (f s a) as

/-- Where every step refines an abstract one, the notes of a run are an abstract run. -/
theorem Run.refines {f} (view : σ → τ)
    {abs} (sim : ∀ s a, P s → P (f s a) ∧ abs (view s) (note s a) (view (f s a)))
    (as : List α) :
    ∀ {s : σ}, P s → Run abs (view s) (trace f note s as) (view (as.foldl f s)) := by
  induction as with
  | nil => exact fun {s} _ => .nil (view s)
  | cons a as ih =>
    intro s start
    obtain ⟨next, step⟩ := sim s a start
    exact .cons step (ih next)

end Mecocoa.Lib
