import Mathlib.Data.Nat.Notation
import Mathlib.Logic.Function.Iterate
import Mathlib.Tactic.Common

/-!
# Loops

`whileLoop cond body n s` repeats `body` as long as `cond` holds, at most `n` times.  `whileLoop_spec` is
the rule for it: an invariant and a variant that starts at most at `n` give the invariant at the exit and
that the loop did leave because of its condition.  `iterate_spec` is the rule for a loop that counts.
-/

namespace Loops

variable {σ : Type}

/-- `while (cond) body`, at most `n` rounds. -/
def whileLoop (cond : σ → Bool) (body : σ → σ) : ℕ → σ → σ
  | 0, s => s
  | n + 1, s => if cond s then whileLoop cond body n (body s) else s

/-- The rule for `while`: the invariant holds at the exit, and the condition does not. -/
theorem whileLoop_spec {cond : σ → Bool} {body : σ → σ} (Inv : σ → Prop) (variant : σ → ℕ)
    (hbody : ∀ s, Inv s → cond s = true → Inv (body s) ∧ variant (body s) < variant s) {n : ℕ} {s : σ}
    (hs : Inv s) (hn : variant s ≤ n) :
    Inv (whileLoop cond body n s) ∧ cond (whileLoop cond body n s) = false := by
  induction n generalizing s with
  | zero =>
    -- the variant is zero, so another round would have to go below it
    have hcond : cond s ≠ true := fun hcond => by
      have := (hbody s hs hcond).2
      omega
    exact ⟨hs, Bool.eq_false_iff.mpr hcond⟩
  | succ n ih =>
    unfold whileLoop
    split
    case isTrue hcond =>
      have hnext := hbody s hs hcond
      exact ih hnext.1 (by omega)
    case isFalse hcond => exact ⟨hs, Bool.eq_false_iff.mpr hcond⟩

/-- The rule for a loop of `k` rounds: `Inv` is indexed by the rounds done. -/
theorem iterate_spec {body : σ → σ} (Inv : ℕ → σ → Prop) (hbody : ∀ j s, Inv j s → Inv (j + 1) (body s))
    {s : σ} (hs : Inv 0 s) (k : ℕ) : Inv k (body^[k] s) := by
  induction k with
  | zero => exact hs
  | succ k ih =>
    rw [Function.iterate_succ_apply']
    exact hbody k _ ih

end Loops
