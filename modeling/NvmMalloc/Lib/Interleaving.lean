import Mathlib.Data.Nat.Notation
import Mathlib.Data.Option.Basic
import Mathlib.Tactic.Common

/-!
# Interleavings

A system takes one atomic action after the other: `step s a` is the state after action `a` in state `s`,
or `none` if the action is not possible there.  The actions of several threads are labelled with the
thread, so that every list of actions is an interleaving.

`Runs init step guard` collects the states that are reached when every action meets `guard` in the state
before it.  A property of all runs is shown by `Runs.invariant`; a particular run is given by its
actions.
-/

namespace Interleaving

variable {σ ι : Type} {init : σ → Prop} {step : σ → ι → Option σ} {guard : σ → ι → Prop}

/-- The states of the runs whose actions all meet `guard`. -/
inductive Runs (init : σ → Prop) (step : σ → ι → Option σ) (guard : σ → ι → Prop) : σ → Prop where
  | start {s : σ} (hinit : init s) : Runs init step guard s
  | next {s s' : σ} {a : ι} (hs : Runs init step guard s) (hguard : guard s a)
      (hstep : step s a = some s') : Runs init step guard s'

/-- What holds at the start and is kept by every action holds in every run. -/
theorem Runs.invariant {Inv : σ → Prop} (hinit : ∀ s, init s → Inv s)
    (hstep : ∀ s a s', Inv s → guard s a → step s a = some s' → Inv s') {s : σ}
    (hs : Runs init step guard s) : Inv s := by
  induction hs with
  | start h => exact hinit _ h
  | next _ hguard h ih => exact hstep _ _ _ ih hguard h

/-- Take a list of actions. -/
def runActions (step : σ → ι → Option σ) : σ → List ι → Option σ
  | s, [] => some s
  | s, a :: as => (step s a).bind fun s' => runActions step s' as

/-- If every action takes something off a measure of its own and adds nothing to that of another one, no
action is taken more often than its measure says. -/
theorem count_le_of_measure [DecidableEq ι] {left : σ → ι → ℕ}
    (hdec : ∀ s a s', step s a = some s' → left s' a < left s a ∧ ∀ b ≠ a, left s' b ≤ left s b)
    {s s' : σ} {as : List ι} (h : runActions step s as = some s') (b : ι) :
    as.count b + left s' b ≤ left s b := by
  induction as generalizing s with
  | nil => exact Option.some.inj h ▸ by simp
  | cons a as ih =>
    obtain ⟨s₁, hstep, hrest⟩ := Option.bind_eq_some_iff.mp h
    obtain ⟨hlt, hothers⟩ := hdec s a s₁ hstep
    have hle := ih hrest
    by_cases hb : b = a
    · subst hb
      rw [List.count_cons_self]
      omega
    · have := hothers b hb
      rw [List.count_cons_of_ne (Ne.symm hb)]
      omega

/-- A list of actions, each of which is checked to meet the guard, is a run. -/
theorem Runs.of_checked {step' : σ → ι → Option σ}
    (hcheck : ∀ {s a s'}, step' s a = some s' → guard s a ∧ step s a = some s') {s s' : σ} {as : List ι}
    (hs : Runs init step guard s) (h : runActions step' s as = some s') : Runs init step guard s' := by
  induction as generalizing s with
  | nil => exact Option.some.inj h ▸ hs
  | cons a as ih =>
    obtain ⟨s₁, hstep, hrest⟩ := Option.bind_eq_some_iff.mp h
    exact ih (hs.next (hcheck hstep).1 (hcheck hstep).2) hrest

/-- A list of actions, each of which meets the guard, after which a test succeeds. -/
theorem Runs.exists_of_checked {step' : σ → ι → Option σ}
    (hcheck : ∀ {s a s'}, step' s a = some s' → guard s a ∧ step s a = some s') {s : σ} {as : List ι}
    {test : σ → Bool} (hs : Runs init step guard s) (h : (runActions step' s as).any test = true) :
    ∃ s', Runs init step guard s' ∧ test s' = true := by
  cases hrun : runActions step' s as with
  | none =>
    rw [hrun] at h
    exact absurd h (by simp)
  | some s' =>
    rw [hrun, Option.any_some] at h
    exact ⟨s', hs.of_checked hcheck hrun, h⟩

/-- The step, where the guard allows it. -/
def guarded (step : σ → ι → Option σ) (guard : σ → ι → Prop) [∀ s a, Decidable (guard s a)]
    (s : σ) (a : ι) : Option σ :=
  if guard s a then step s a else none

/-- A list of guarded actions after which a test succeeds. -/
theorem Runs.exists_of_guarded [∀ s a, Decidable (guard s a)] {s : σ} {as : List ι} {test : σ → Bool}
    (hs : Runs init step guard s) (h : (runActions (guarded step guard) s as).any test = true) :
    ∃ s', Runs init step guard s' ∧ test s' = true := by
  refine hs.exists_of_checked (fun {s a s'} hstep => ?_) h
  unfold guarded at hstep
  split at hstep
  case isTrue hguard => exact ⟨hguard, hstep⟩
  case isFalse => cases hstep

/-- A list of actions is a run without a guard. -/
theorem Runs.of_actions {s s' : σ} {as : List ι} (hs : Runs init step (fun _ _ => True) s)
    (h : runActions step s as = some s') : Runs init step (fun _ _ => True) s' :=
  hs.of_checked (fun hstep => ⟨trivial, hstep⟩) h

/-- A list of actions after which a test succeeds. -/
theorem Runs.exists_of_actions {s : σ} {as : List ι} {test : σ → Bool}
    (hs : Runs init step (fun _ _ => True) s) (h : (runActions step s as).any test = true) :
    ∃ s', Runs init step (fun _ _ => True) s' ∧ test s' = true :=
  hs.exists_of_checked (fun hstep => ⟨trivial, hstep⟩) h

end Interleaving
