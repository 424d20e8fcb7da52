import Mathlib.Data.Nat.Notation
import Mathlib.Data.List.Nodup
import Mathlib.Logic.Function.Basic
import Mathlib.Tactic.Common

/-!
# Null-terminated linked lists

`Linked next s l` says that following `next` from the pointer `s` visits exactly the nodes of `l`, in
order, and then ends.  Since the traversal ends, it visits no node twice.
-/

variable {α : Type}

/-- Following `next` from `s` visits the nodes `l` and ends. -/
def Linked (next : α → Option α) : Option α → List α → Prop
  | s, [] => s = none
  | s, x :: l => s = some x ∧ Linked next (next x) l

namespace Linked

variable {next next' : α → Option α} {s : Option α} {l : List α}

/-- A pointer has only one traversal. -/
theorem unique {l' : List α} (h : Linked next s l) (h' : Linked next s l') : l = l' := by
  induction l generalizing s l' with
  | nil =>
    cases l' with
    | nil => rfl
    | cons x l' => exact absurd (h.symm.trans h'.1) (by simp)
  | cons x l ih =>
    cases l' with
    | nil => exact absurd (h'.symm.trans h.1) (by simp)
    | cons y l' =>
      have hxy : x = y := Option.some.inj (h.1.symm.trans h'.1)
      subst hxy
      rw [ih h.2 h'.2]

/-- The traversal from a node on the list is a suffix of the list. -/
theorem of_mem (h : Linked next s l) {x : α} (hx : x ∈ l) :
    ∃ k, Linked next (some x) k ∧ k.length ≤ l.length := by
  induction l generalizing s with
  | nil => exact absurd hx (by simp)
  | cons y l ih =>
    rcases List.mem_cons.mp hx with rfl | hx
    · exact ⟨x :: l, ⟨rfl, h.2⟩, Nat.le_refl _⟩
    · obtain ⟨k, hk, hle⟩ := ih h.2 hx
      exact ⟨k, hk, Nat.le_succ_of_le hle⟩

/-- A traversal that ends has no repetition. -/
theorem nodup (h : Linked next s l) : l.Nodup := by
  induction l generalizing s with
  | nil => exact List.nodup_nil
  | cons x l ih =>
    refine List.nodup_cons.mpr ⟨fun hx => ?_, ih h.2⟩
    obtain ⟨k, hk, hle⟩ := h.2.of_mem hx
    -- from `x` the traversal is `x :: l`, and also the shorter `k`
    have hself : Linked next (some x) (x :: l) := ⟨rfl, h.2⟩
    have hlen := congrArg List.length (hself.unique hk)
    rw [List.length_cons] at hlen
    omega

/-- Only the pointers of the visited nodes matter. -/
theorem congr (h : Linked next s l) (heq : ∀ x ∈ l, next' x = next x) : Linked next' s l := by
  induction l generalizing s with
  | nil => exact h
  | cons x l ih =>
    refine ⟨h.1, ?_⟩
    rw [heq x List.mem_cons_self]
    exact ih h.2 fun y hy => heq y (List.mem_cons_of_mem x hy)

end Linked
