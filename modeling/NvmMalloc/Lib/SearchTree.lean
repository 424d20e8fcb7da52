import Mathlib.Data.Nat.Notation
import Mathlib.Data.List.Perm.Basic
import Mathlib.Data.Nat.Init
import Mathlib.Order.Nat
import Mathlib.Tactic.Common

/-!
# Binary search trees keyed by a size

Unbalanced binary trees as an intrusive tree library offers them: `treeAdd` walks to a leaf, sending
equal keys to the right, and `treeDel` unlinks one node, replacing it by its only child or by its
in-order successor.  Nodes carry their contents, and a node is identified by them.

The results are about the multiset of nodes (`treeAdd` adds exactly the given node, `treeDel` removes
exactly one occurrence of it) and about their order: both keep the tree in search order, and in such a
tree `treeUpperBound` returns the best fit.
-/

/-- A binary tree with entries at its nodes. -/
inductive SearchTree (α : Type) where
  | nil
  | node (left : SearchTree α) (entry : α) (right : SearchTree α)

namespace SearchTree

variable {α : Type}

/-- The entries in order. -/
def toList : SearchTree α → List α
  | nil => []
  | node l x r => l.toList ++ x :: r.toList

/-- `tree_add`: descend to a leaf, smaller keys to the left. -/
def treeAdd (key : α → ℕ) (x : α) : SearchTree α → SearchTree α
  | nil => node nil x nil
  | node l y r => if key x < key y then node (treeAdd key x l) y r else node l y (treeAdd key x r)

/-- Unlink the leftmost entry of the tree with these parts. -/
def popMin : SearchTree α → α → SearchTree α → α × SearchTree α
  | nil, x, r => (x, r)
  | node ll y lr, x, r => ((popMin ll y lr).1, node (popMin ll y lr).2 x r)

/-- What replaces a deleted node with these children. -/
def joinChildren : SearchTree α → SearchTree α → SearchTree α
  | nil, r => r
  | node ll y lr, nil => node ll y lr
  | node ll y lr, node rl z rr =>
    node (node ll y lr) (popMin rl z rr).1 (popMin rl z rr).2

/-- `tree_del`: unlink one node with the contents of `x`. -/
def treeDel [DecidableEq α] (x : α) : SearchTree α → SearchTree α
  | nil => nil
  | node l y r =>
    if y = x then joinChildren l r
    else if x ∈ l.toList then node (treeDel x l) y r
    else node l y (treeDel x r)

/-- Best fit: the entry with the smallest key at least `req` on the search path, where `last` is the
larger entry passed most recently. -/
def treeUpperBound (key : α → ℕ) (req : ℕ) : SearchTree α → Option α → Option α
  | nil, last => last
  | node l x r, last =>
    if key x = req then some x
    else if key x < req then treeUpperBound key req r last
    else treeUpperBound key req l (some x)

/-- The empty tree. -/
def isNil : SearchTree α → Bool
  | nil => true
  | node .. => false

theorem isNil_iff {t : SearchTree α} : t.isNil = true ↔ t = nil := by
  cases t <;> simp [isNil]

@[simp] theorem toList_nil : (nil : SearchTree α).toList = [] := rfl

@[simp] theorem toList_node (l r : SearchTree α) (x : α) :
    (node l x r).toList = l.toList ++ x :: r.toList := rfl

theorem treeAdd_perm (key : α → ℕ) (x : α) (t : SearchTree α) :
    (treeAdd key x t).toList.Perm (x :: t.toList) := by
  induction t with
  | nil => simp [treeAdd]
  | node l y r ihl ihr =>
    rw [treeAdd]
    split
    · exact (ihl.append_right _).trans (by simp)
    · have hmid : (l.toList ++ y :: (treeAdd key x r).toList).Perm
          (l.toList ++ y :: x :: r.toList) := (ihr.cons y).append_left _
      refine hmid.trans ?_
      have hswap : (y :: x :: r.toList).Perm (x :: y :: r.toList) := List.Perm.swap ..
      exact (hswap.append_left _).trans List.perm_middle

theorem toList_popMin (l : SearchTree α) (x : α) (r : SearchTree α) :
    (popMin l x r).1 :: (popMin l x r).2.toList = l.toList ++ x :: r.toList := by
  induction l generalizing x r with
  | nil => simp [popMin]
  | node ll y lr ihl _ =>
    rw [popMin]
    have h := ihl y lr
    simp only [toList_node] at h ⊢
    rw [← List.cons_append, h]

theorem toList_joinChildren (l r : SearchTree α) :
    (joinChildren l r).toList = l.toList ++ r.toList := by
  match l, r with
  | nil, r => simp [joinChildren]
  | node ll y lr, nil => simp [joinChildren]
  | node ll y lr, node rl z rr =>
    have h := toList_popMin rl z rr
    rw [joinChildren, toList_node, h, toList_node rl rr z]

theorem treeDel_perm [DecidableEq α] {x : α} {t : SearchTree α} (hx : x ∈ t.toList) :
    (x :: (treeDel x t).toList).Perm t.toList := by
  induction t with
  | nil => simp at hx
  | node l y r ihl ihr =>
    rw [treeDel]
    by_cases hy : y = x
    · rw [if_pos hy, toList_joinChildren, hy]
      exact List.perm_middle.symm
    · rw [if_neg hy]
      by_cases hl : x ∈ l.toList
      · rw [if_pos hl]
        exact (ihl hl).append_right (y :: r.toList)
      · rw [if_neg hl]
        have hr : x ∈ r.toList := by
          simp only [toList_node, List.mem_append, List.mem_cons] at hx
          rcases hx with h | h | h
          · exact absurd h hl
          · exact absurd h.symm hy
          · exact h
        have hright : (y :: x :: (treeDel x r).toList).Perm (y :: r.toList) := (ihr hr).cons y
        have hswap : (x :: y :: (treeDel x r).toList).Perm (y :: x :: (treeDel x r).toList) :=
          List.Perm.swap ..
        exact List.perm_middle.symm.trans (((hswap.trans hright)).append_left l.toList)

/-- The best-fit search returns an entry of the tree (or the initial candidate). -/
theorem treeUpperBound_mem {key : α → ℕ} {req : ℕ} {t : SearchTree α} {last : Option α} {x : α}
    (h : treeUpperBound key req t last = some x) : x ∈ t.toList ∨ last = some x := by
  induction t generalizing last with
  | nil => exact Or.inr h
  | node l y r ihl ihr =>
    rw [treeUpperBound] at h
    split at h
    · exact Or.inl (by simp [Option.some.inj h])
    · split at h
      · rcases ihr h with hm | hm
        · exact Or.inl (by simp [hm])
        · exact Or.inr hm
      · rcases ihl h with hm | hm
        · exact Or.inl (by simp [hm])
        · exact Or.inl (by simp [Option.some.inj hm])

/-- The best-fit search returns an entry whose key is at least the request. -/
theorem le_key_treeUpperBound {key : α → ℕ} {req : ℕ} {t : SearchTree α} {last : Option α} {x : α}
    (hlast : ∀ y, last = some y → req ≤ key y) (h : treeUpperBound key req t last = some x) :
    req ≤ key x := by
  induction t generalizing last with
  | nil => exact hlast x h
  | node l y r ihl ihr =>
    rw [treeUpperBound] at h
    split at h
    · rename_i heq
      rw [← Option.some.inj h]
      omega
    · split at h
      · exact ihr hlast h
      · refine ihl (fun z hz => ?_) h
        rw [← Option.some.inj hz]
        omega

/-! ## Search order -/

/-- Keys do not decrease from left to right: smaller ones on the left, larger ones on the right, equal
ones on either side. -/
def Ordered (key : α → ℕ) : SearchTree α → Prop
  | nil => True
  | node l x r =>
    (∀ y ∈ l.toList, key y ≤ key x) ∧ (∀ y ∈ r.toList, key x ≤ key y) ∧ l.Ordered key ∧ r.Ordered key

/-- `o` is what a best-fit search for `req` should return: an entry with the smallest key that is
large enough, or nothing exactly when no entry is large enough. -/
structure BestFit (key : α → ℕ) (req : ℕ) (t : SearchTree α) (o : Option α) : Prop where
  mem : ∀ x, o = some x → x ∈ t.toList
  fits : ∀ x, o = some x → req ≤ key x
  least : ∀ x, o = some x → ∀ y ∈ t.toList, req ≤ key y → key x ≤ key y
  none_iff : o = none ↔ ∀ y ∈ t.toList, key y < req

/-- A tree is in search order if its entries, read in order, are sorted. -/
theorem ordered_iff_pairwise {key : α → ℕ} {t : SearchTree α} :
    t.Ordered key ↔ t.toList.Pairwise (fun x y => key x ≤ key y) := by
  induction t with
  | nil => simp [Ordered]
  | node l x r ihl ihr =>
    rw [Ordered, ihl, ihr, toList_node, List.pairwise_append, List.pairwise_cons]
    constructor
    · rintro ⟨hl, hr, hpl, hpr⟩
      refine ⟨hpl, ⟨hr, hpr⟩, fun y hy z hz => ?_⟩
      rcases List.mem_cons.mp hz with rfl | hz
      · exact hl y hy
      · exact (hl y hy).trans (hr z hz)
    · rintro ⟨hpl, ⟨hr, hpr⟩, hcross⟩
      exact ⟨fun y hy => hcross y hy x List.mem_cons_self, hr, hpl, hpr⟩

/-- `treeDel` takes entries out of the in-order sequence and leaves the rest in place. -/
theorem toList_treeDel_sublist [DecidableEq α] (x : α) (t : SearchTree α) :
    (treeDel x t).toList.Sublist t.toList := by
  induction t with
  | nil => exact List.Sublist.refl _
  | node l y r ihl ihr =>
    rw [treeDel]
    split
    · rw [toList_joinChildren]
      exact (List.sublist_cons_self y r.toList).append_left l.toList
    · split
      · exact ihl.append_right (y :: r.toList)
      · exact (ihr.cons_cons y).append_left l.toList

theorem Ordered.treeDel [DecidableEq α] {key : α → ℕ} {t : SearchTree α} (h : t.Ordered key) (x : α) :
    (t.treeDel x).Ordered key :=
  ordered_iff_pairwise.mpr ((ordered_iff_pairwise.mp h).sublist (toList_treeDel_sublist x t))

theorem Ordered.treeAdd {key : α → ℕ} {t : SearchTree α} (h : t.Ordered key) (x : α) :
    (t.treeAdd key x).Ordered key := by
  induction t with
  | nil => simp [SearchTree.treeAdd, Ordered]
  | node l y r ihl ihr =>
    obtain ⟨hl, hr, hol, hor⟩ := h
    rw [SearchTree.treeAdd]
    split
    · rename_i hlt
      refine ⟨fun z hz => ?_, hr, ihl hol, hor⟩
      rcases List.mem_cons.mp ((treeAdd_perm key x l).mem_iff.mp hz) with rfl | hz
      · exact hlt.le
      · exact hl z hz
    · rename_i hle
      refine ⟨hl, fun z hz => ?_, hol, ihr hor⟩
      rcases List.mem_cons.mp ((treeAdd_perm key x r).mem_iff.mp hz) with rfl | hz
      · exact not_lt.mp hle
      · exact hr z hz

/-- The search below a candidate `last` that fits and bounds the subtree returns the least fit of the
subtree and the candidate. -/
theorem treeUpperBound_least {key : α → ℕ} {req : ℕ} {t : SearchTree α} {last : Option α} {x : α}
    (ht : t.Ordered key) (hlast : ∀ z, last = some z → ∀ y ∈ t.toList, key y ≤ key z)
    (h : treeUpperBound key req t last = some x) {y : α} (hy : y ∈ t.toList) (hfit : req ≤ key y) :
    key x ≤ key y := by
  induction t generalizing last with
  | nil => exact absurd hy List.not_mem_nil
  | node l z r ihl ihr =>
    obtain ⟨hl, hr, hol, hor⟩ := ht
    rw [treeUpperBound] at h
    simp only [toList_node, List.mem_append, List.mem_cons] at hy hlast
    split at h
    · rename_i heq
      rw [← Option.some.inj h]
      omega
    · split at h
      · -- the entry here and everything to its left is too small
        rename_i hlt
        rcases hy with hy | rfl | hy
        · exact absurd (hl y hy) (by omega)
        · omega
        · exact ihr hor (fun u hu v hv => hlast u hu v (.inr (.inr hv))) h hy
      · rename_i hgt
        have hle : key x ≤ key z := by
          rcases treeUpperBound_mem h with hm | hm
          · exact hl x hm
          · rw [Option.some.inj hm]
        rcases hy with hy | rfl | hy
        · exact ihl hol (fun u hu v hv => Option.some.inj hu ▸ hl v hv) h hy
        · exact hle
        · exact hle.trans (hr y hy)

/-- The search fails only below no candidate and in a tree without a fit. -/
theorem treeUpperBound_eq_none {key : α → ℕ} {req : ℕ} {t : SearchTree α} {last : Option α}
    (ht : t.Ordered key) (h : treeUpperBound key req t last = none) :
    last = none ∧ ∀ y ∈ t.toList, key y < req := by
  induction t generalizing last with
  | nil => exact ⟨h, fun y hy => absurd hy List.not_mem_nil⟩
  | node l z r ihl ihr =>
    obtain ⟨hl, hr, hol, hor⟩ := ht
    rw [treeUpperBound] at h
    split at h
    · exact absurd h (by simp)
    · split at h
      · rename_i hlt
        obtain ⟨hnone, hright⟩ := ihr hor h
        refine ⟨hnone, fun y hy => ?_⟩
        simp only [toList_node, List.mem_append, List.mem_cons] at hy
        rcases hy with hy | rfl | hy
        · exact (hl y hy).trans_lt hlt
        · exact hlt
        · exact hright y hy
      · exact absurd (ihl hol h).1 (by simp)

/-- In a tree in search order the search returns the best fit. -/
theorem Ordered.bestFit {key : α → ℕ} {t : SearchTree α} (h : t.Ordered key) (req : ℕ) :
    BestFit key req t (treeUpperBound key req t none) where
  mem x hx := (treeUpperBound_mem hx).resolve_right (by simp)
  fits x hx := le_key_treeUpperBound (by simp) hx
  least x hx y hy hfit := treeUpperBound_least h (by simp) hx hy hfit
  none_iff := by
    constructor
    · exact fun hnone => (treeUpperBound_eq_none h hnone).2
    · intro hsmall
      rcases hx : treeUpperBound key req t none with _ | x
      · rfl
      · have hmem := (treeUpperBound_mem hx).resolve_right (by simp)
        exact absurd (le_key_treeUpperBound (by simp) hx) (not_le.mpr (hsmall x hmem))

/-! ## Trees as sets -/

/-- The tree holds exactly the elements of `S`, each once. -/
structure Holds (t : SearchTree α) (S : α → Prop) : Prop where
  nodup : t.toList.Nodup
  mem : ∀ x, x ∈ t.toList ↔ S x

theorem Holds.congr {t : SearchTree α} {S S' : α → Prop} (h : t.Holds S) (hS : ∀ x, S' x ↔ S x) :
    t.Holds S' :=
  ⟨h.nodup, fun x => (h.mem x).trans (hS x).symm⟩

/-- Adding a new element. -/
theorem Holds.treeAdd {t : SearchTree α} {S S' : α → Prop} {key : α → ℕ} {x : α} (h : t.Holds S)
    (hx : ¬ S x) (hS : ∀ y, S' y ↔ y = x ∨ S y) : (t.treeAdd key x).Holds S' := by
  have hperm := treeAdd_perm key x t
  refine ⟨hperm.nodup_iff.mpr (List.nodup_cons.mpr ⟨?_, h.nodup⟩), fun y => ?_⟩
  · rwa [h.mem]
  · rw [hperm.mem_iff, List.mem_cons, h.mem, hS]

/-- Removing an element. -/
theorem Holds.treeDel [DecidableEq α] {t : SearchTree α} {S S' : α → Prop} {x : α} (h : t.Holds S)
    (hx : S x) (hS : ∀ y, S' y ↔ S y ∧ y ≠ x) : (t.treeDel x).Holds S' := by
  have hperm := treeDel_perm ((h.mem x).mpr hx)
  obtain ⟨hnot, hnd⟩ := List.nodup_cons.mp (hperm.nodup_iff.mpr h.nodup)
  refine ⟨hnd, fun y => ?_⟩
  rw [hS, ← h.mem, ← hperm.mem_iff, List.mem_cons]
  constructor
  · exact fun hy => ⟨Or.inr hy, ne_of_mem_of_not_mem hy hnot⟩
  · rintro ⟨hy | hy, hne⟩
    · exact absurd hy hne
    · exact hy

end SearchTree
