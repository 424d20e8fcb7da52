import Mathlib.Data.Finset.Card
import Mathlib.Data.Nat.Notation

/-!
# Counting threads and exclusive resources

Accounts of a system of threads `pc : ι → α`, any number of them, of which one moves at a time.

* `Census P pc n`: exactly `n` threads are at a place with `P`.  A thread that moves enters, leaves or
  stays, and the number follows.
* `Exclusive owns`: no resource has two owners.  A resource may be dropped, handed on or brought in.
-/

namespace Threads

/-! ## Counting -/

section

variable {ι α : Type} [DecidableEq ι] {P : α → Prop} {pc : ι → α} {i : ι} {q : α} {n : ℕ}

/-- Exactly `n` threads are at a place with `P`. -/
def Census (P : α → Prop) (pc : ι → α) (n : ℕ) : Prop :=
  ∃ t : Finset ι, (∀ j, j ∈ t ↔ P (pc j)) ∧ t.card = n

omit [DecidableEq ι] in
/-- Nobody is there. -/
theorem Census.zero (h : ∀ j, ¬ P (pc j)) : Census P pc 0 :=
  ⟨∅, fun j => iff_of_false (Finset.notMem_empty j) (h j), Finset.card_empty⟩

omit [DecidableEq ι] in
/-- Somebody is there. -/
theorem Census.pos (h : Census P pc n) (hi : P (pc i)) : 0 < n := by
  obtain ⟨t, ht, rfl⟩ := h
  exact Finset.card_pos.mpr ⟨i, (ht i).mpr hi⟩

/-- A thread moves, but neither in nor out. -/
theorem Census.stay (h : Census P pc n) (hi : P q ↔ P (pc i)) : Census P (Function.update pc i q) n := by
  obtain ⟨t, ht, hn⟩ := h
  refine ⟨t, fun j => ?_, hn⟩
  by_cases hj : j = i
  · subst hj
    rw [Function.update_self, hi, ht]
  · rw [Function.update_of_ne hj, ht]

/-- A thread comes in. -/
theorem Census.enter (h : Census P pc n) (hi : ¬ P (pc i)) (hq : P q) :
    Census P (Function.update pc i q) (n + 1) := by
  obtain ⟨t, ht, rfl⟩ := h
  refine ⟨insert i t, fun j => ?_, Finset.card_insert_of_notMem fun hmem => hi ((ht i).mp hmem)⟩
  by_cases hj : j = i
  · subst hj
    rw [Function.update_self]
    exact iff_of_true (Finset.mem_insert_self j t) hq
  · rw [Function.update_of_ne hj, Finset.mem_insert, ht]
    exact or_iff_right hj

/-- A thread goes out. -/
theorem Census.leave (h : Census P pc (n + 1)) (hi : P (pc i)) (hq : ¬ P q) :
    Census P (Function.update pc i q) n := by
  obtain ⟨t, ht, hn⟩ := h
  refine ⟨t.erase i, fun j => ?_, ?_⟩
  · by_cases hj : j = i
    · subst hj
      rw [Function.update_self]
      exact iff_of_false (Finset.notMem_erase j t) hq
    · rw [Function.update_of_ne hj, Finset.mem_erase, ht]
      exact and_iff_right hj
  · rw [Finset.card_erase_of_mem ((ht i).mpr hi), hn, Nat.add_sub_cancel]

end

/-! ## Exclusive resources -/

section

variable {ω ρ : Type} {owns owns' : ω → ρ → Prop}

/-- No resource has two owners. -/
def Exclusive (owns : ω → ρ → Prop) : Prop := ∀ ⦃o o' x⦄, owns o x → owns o' x → o = o'

/-- Owners may drop what they have. -/
theorem Exclusive.drop (h : Exclusive owns) (hsub : ∀ o x, owns' o x → owns o x) : Exclusive owns' :=
  fun _ _ _ ho ho' => h (hsub _ _ ho) (hsub _ _ ho')

/-- `a` hands `x` on to `b`. -/
theorem Exclusive.move (h : Exclusive owns) {a b : ω} {x : ρ} (ha : owns a x)
    (hsub : ∀ o y, owns' o y → (o = b ∧ y = x) ∨ (o ≠ a ∧ owns o y)) : Exclusive owns' := by
  intro o o' y ho ho'
  rcases hsub o y ho with ⟨rfl, rfl⟩ | ⟨hne, hold⟩
  · rcases hsub o' y ho' with ⟨rfl, -⟩ | ⟨hne', hold'⟩
    · rfl
    · exact absurd (h hold' ha) hne'
  · rcases hsub o' y ho' with ⟨-, rfl⟩ | ⟨-, hold'⟩
    · exact absurd (h hold ha) hne
    · exact h hold hold'

/-- `b` brings in `x`, which nobody had. -/
theorem Exclusive.bring (h : Exclusive owns) {b : ω} {x : ρ} (hnew : ∀ o, ¬ owns o x)
    (hsub : ∀ o y, owns' o y → (o = b ∧ y = x) ∨ owns o y) : Exclusive owns' := by
  intro o o' y ho ho'
  rcases hsub o y ho with ⟨rfl, rfl⟩ | hold
  · rcases hsub o' y ho' with ⟨rfl, -⟩ | hold'
    · rfl
    · exact absurd hold' (hnew _)
  · rcases hsub o' y ho' with ⟨-, rfl⟩ | hold'
    · exact absurd hold (hnew _)
    · exact h hold hold'

end

end Threads
