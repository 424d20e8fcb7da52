import Mathlib.Data.Nat.Notation
import Mathlib.Data.List.Nodup
import Mathlib.Logic.Function.Basic
import Mathlib.Tactic.Common

/-!
# Tilings of an interval

A tiling of `[lo, hi)` is given by its tile starts: `len p = some n` says that a tile of length `n`
starts at `p`.  Consecutive tiles touch and no tile starts inside another one.  The two ways a tiling
changes here are `split`, which cuts the tail off one tile, and `append`, which grows the interval by
one tile.

`IsPartition lo hi rs` is the same statement about a plain list of regions, in terms of points: every
point of the interval lies in exactly one region, and every other point in none.
-/

/-- The tiles of `[lo, hi)`, by start. -/
structure Tiling (lo hi : ℕ) (len : ℕ → Option ℕ) : Prop where
  first : lo < hi → (len lo).isSome
  bounds : ∀ {p n}, len p = some n → 0 < n ∧ lo ≤ p ∧ p + n ≤ hi
  next : ∀ {p n}, len p = some n → p + n < hi → (len (p + n)).isSome
  sep : ∀ {p n q}, len p = some n → p < q → q < p + n → len q = none

namespace Tiling

variable {lo hi : ℕ} {len : ℕ → Option ℕ}

/-- An empty range has no tiles. -/
theorem empty (lo : ℕ) : Tiling lo lo fun _ => none where
  first h := absurd h (by omega)
  bounds h := absurd h (by simp)
  next h := absurd h (by simp)
  sep h := absurd h (by simp)

/-- Two tiles are the same tile or do not overlap. -/
theorem disjoint (h : Tiling lo hi len) {p n q k : ℕ} (hp : len p = some n) (hq : len q = some k)
    (hne : p ≠ q) : p + n ≤ q ∨ q + k ≤ p := by
  rcases Nat.lt_or_gt_of_ne hne with hlt | hgt
  · by_contra hcon
    have hnone := h.sep hp hlt (by omega)
    rw [hq] at hnone
    exact absurd hnone (by simp)
  · by_contra hcon
    have hnone := h.sep hq hgt (by omega)
    rw [hp] at hnone
    exact absurd hnone (by simp)

/-- Every point of the interval lies in a tile. -/
theorem cover (h : Tiling lo hi len) {x : ℕ} (hlo : lo ≤ x) (hhi : x < hi) :
    ∃ p n, len p = some n ∧ p ≤ x ∧ x < p + n := by
  -- Walk from `lo` to `x`: the tile of `x` is the tile of `x - 1`, or starts right after it.
  obtain ⟨d, rfl⟩ : ∃ d, x = lo + d := ⟨x - lo, by omega⟩
  induction d with
  | zero =>
    obtain ⟨n, hn⟩ := Option.isSome_iff_exists.mp (h.first (by omega))
    exact ⟨lo, n, hn, by omega, by have := (h.bounds hn).1; omega⟩
  | succ d ih =>
    obtain ⟨p, n, hp, hle, hlt⟩ := ih (by omega) (by omega)
    by_cases hin : lo + (d + 1) < p + n
    · exact ⟨p, n, hp, by omega, hin⟩
    · have heq : p + n = lo + (d + 1) := by omega
      obtain ⟨k, hk⟩ := Option.isSome_iff_exists.mp (h.next hp (by omega))
      rw [heq] at hk
      exact ⟨lo + (d + 1), k, hk, Nat.le_refl _, by have := (h.bounds hk).1; omega⟩

theorem lt_of_some (h : Tiling lo hi len) {p n : ℕ} (hp : len p = some n) : p < hi := by
  have := h.bounds hp
  omega

/-- No tile starts at or after the end. -/
theorem none_of_le (h : Tiling lo hi len) {p : ℕ} (hp : hi ≤ p) : len p = none := by
  cases hlen : len p with
  | none => rfl
  | some n => exact absurd (h.lt_of_some hlen) (by omega)

/-- Cutting the last `k` units off the tile at `p`. -/
theorem split (h : Tiling lo hi len) {p n k : ℕ} (hp : len p = some n) (hk : 0 < k) (hkn : k < n) :
    Tiling lo hi (Function.update (Function.update len p (some (n - k))) (p + n - k) (some k)) := by
  obtain ⟨hn, hlo, hhi⟩ := h.bounds hp
  -- the three shapes of the new length map
  have htail : Function.update (Function.update len p (some (n - k))) (p + n - k) (some k)
      (p + n - k) = some k := by simp
  have hhead : Function.update (Function.update len p (some (n - k))) (p + n - k) (some k) p
      = some (n - k) := by
    rw [Function.update_of_ne (by omega), Function.update_self]
  have hold : ∀ q, q ≠ p → q ≠ p + n - k →
      Function.update (Function.update len p (some (n - k))) (p + n - k) (some k) q = len q := by
    intro q hq hq'
    rw [Function.update_of_ne hq', Function.update_of_ne hq]
  have hcases : ∀ q m,
      Function.update (Function.update len p (some (n - k))) (p + n - k) (some k) q = some m →
      (p + n - k = q ∧ k = m) ∨ (p = q ∧ n - k = m) ∨ (q ≠ p ∧ q ≠ p + n - k ∧ len q = some m) := by
    intro q m hq
    by_cases h1 : q = p + n - k
    · rw [h1, htail] at hq
      exact Or.inl ⟨h1.symm, by simpa using hq⟩
    · by_cases h2 : q = p
      · rw [h2, hhead] at hq
        exact Or.inr (Or.inl ⟨h2.symm, by simpa using hq⟩)
      · exact Or.inr (Or.inr ⟨h2, h1, by rwa [hold q h2 h1] at hq⟩)
  constructor
  · intro hlt
    by_cases h1 : lo = p + n - k
    · rw [h1, htail]; rfl
    · by_cases h2 : lo = p
      · rw [h2, hhead]; rfl
      · rw [hold lo h2 h1]; exact h.first hlt
  · intro q m hq
    rcases hcases q m hq with ⟨rfl, rfl⟩ | ⟨rfl, rfl⟩ | ⟨-, -, hq'⟩
    · omega
    · omega
    · exact h.bounds hq'
  · intro q m hq hlt
    rcases hcases q m hq with ⟨rfl, rfl⟩ | ⟨rfl, rfl⟩ | ⟨hq1, hq2, hq'⟩
    · have heq : p + n - k + k = p + n := by omega
      rw [heq, hold _ (by omega) (by omega)]
      exact h.next hp (by omega)
    · have heq : p + (n - k) = p + n - k := by omega
      rw [heq, htail]; rfl
    · have hnext := h.next hq' hlt
      by_cases h1 : q + m = p + n - k
      · rw [h1, htail]; rfl
      · by_cases h2 : q + m = p
        · rw [h2, hhead]; rfl
        · rw [hold _ h2 h1]; exact hnext
  · intro q m r hq hlt hr
    rcases hcases q m hq with ⟨rfl, rfl⟩ | ⟨rfl, rfl⟩ | ⟨hq1, hq2, hq'⟩
    · rw [hold r (by omega) (by omega)]
      exact h.sep hp (by omega) (by omega)
    · rw [hold r (by omega) (by omega)]
      exact h.sep hp (by omega) (by omega)
    · have hd := h.disjoint hq' hp hq1
      rw [hold r (by omega) (by omega)]
      exact h.sep hq' hlt hr

/-- Growing the interval by one tile. -/
theorem append (h : Tiling lo hi len) {k : ℕ} (hle : lo ≤ hi) (hk : 0 < k) :
    Tiling lo (hi + k) (Function.update len hi (some k)) := by
  have hlast : Function.update len hi (some k) hi = some k := Function.update_self ..
  have hold : ∀ q, q ≠ hi → Function.update len hi (some k) q = len q :=
    fun q hq => Function.update_of_ne hq ..
  have hcases : ∀ q m, Function.update len hi (some k) q = some m →
      (hi = q ∧ k = m) ∨ (q ≠ hi ∧ len q = some m) := by
    intro q m hq
    by_cases h1 : q = hi
    · rw [h1, hlast] at hq
      exact Or.inl ⟨h1.symm, by simpa using hq⟩
    · exact Or.inr ⟨h1, by rwa [hold q h1] at hq⟩
  constructor
  · intro hlt
    by_cases h1 : lo = hi
    · rw [h1, hlast]; rfl
    · rw [hold lo h1]; exact h.first (by omega)
  · intro q m hq
    rcases hcases q m hq with ⟨rfl, rfl⟩ | ⟨-, hq'⟩
    · omega
    · have := h.bounds hq'; omega
  · intro q m hq hlt
    rcases hcases q m hq with ⟨rfl, rfl⟩ | ⟨-, hq'⟩
    · omega
    · have hb := h.bounds hq'
      by_cases h1 : q + m = hi
      · rw [h1, hlast]; rfl
      · rw [hold _ h1]; exact h.next hq' (by omega)
  · intro q m r hq hlt hr
    rcases hcases q m hq with ⟨rfl, rfl⟩ | ⟨-, hq'⟩
    · rw [hold r (by omega)]; exact h.none_of_le (by omega)
    · have hb := h.bounds hq'
      rw [hold r (by omega)]; exact h.sep hq' hlt hr

/-- Only the lengths matter. -/
theorem congr {len' : ℕ → Option ℕ} (h : Tiling lo hi len) (heq : ∀ p, len' p = len p) :
    Tiling lo hi len' := by
  have : len' = len := funext heq
  rw [this]
  exact h

/-- The part of a tiling between two tile boundaries. -/
theorem restrict (h : Tiling lo hi len) {a b : ℕ} (hb : b ≤ hi)
    (hstart : a < b → (len a).isSome) (hend : b < hi → (len b).isSome) :
    Tiling a b fun p => if a ≤ p ∧ p < b then len p else none := by
  have hcases : ∀ {p n}, (if a ≤ p ∧ p < b then len p else none) = some n →
      a ≤ p ∧ p + n ≤ b ∧ len p = some n := by
    intro p n hp
    split at hp
    · rename_i hab
      refine ⟨hab.1, ?_, hp⟩
      have hle := (h.bounds hp).2.2
      by_cases hbhi : b < hi
      · obtain ⟨k, hk⟩ := Option.isSome_iff_exists.mp (hend hbhi)
        have hd := h.disjoint hp hk (by omega)
        have hpos := (h.bounds hk).1
        omega
      · omega
    · exact absurd hp (by simp)
  refine ⟨fun hab => ?_, fun hp => ?_, fun hp hlt => ?_, fun {p n q} hp hlt hq => ?_⟩
  · rw [if_pos ⟨Nat.le_refl a, hab⟩]
    exact hstart hab
  · obtain ⟨hap, hpb, hp'⟩ := hcases hp
    exact ⟨(h.bounds hp').1, hap, hpb⟩
  · obtain ⟨hap, -, hp'⟩ := hcases hp
    rw [if_pos ⟨by omega, hlt⟩]
    exact h.next hp' (by omega)
  · obtain ⟨-, -, hp'⟩ := hcases hp
    rw [h.sep hp' hlt hq, ite_self]

end Tiling

/-! ## Walks -/

/-- The points that a walk from `p` meets below `hi`, in at most `fuel` steps. -/
def walk (step : ℕ → ℕ) (hi : ℕ) : ℕ → ℕ → List ℕ
  | 0, _ => []
  | fuel + 1, p => if p < hi then p :: walk step hi fuel (p + step p) else []

/-- Where such a walk stops. -/
def walkEnd (step : ℕ → ℕ) (hi : ℕ) : ℕ → ℕ → ℕ
  | 0, p => p
  | fuel + 1, p => if p < hi then walkEnd step hi fuel (p + step p) else p

namespace Tiling

variable {lo hi : ℕ} {len : ℕ → Option ℕ} {f : ℕ → ℕ}

/-- **A walk that steps from tile to tile meets the starts of the tiles, in order.** -/
theorem walk_spec (h : Tiling lo hi len) (hstep : ∀ {p n}, len p = some n → f p = n) {k p : ℕ}
    (hp : p < hi → (len p).isSome) (hlo : lo ≤ p) (hfuel : hi ≤ p + k) :
    (walk f hi k p).Pairwise (· < ·) ∧
      ∀ q, q ∈ walk f hi k p ↔ p ≤ q ∧ (len q).isSome := by
  induction k generalizing p with
  | zero =>
    refine ⟨List.Pairwise.nil, fun q => ⟨fun hq => absurd hq (by simp [walk]), fun ⟨hle, hq⟩ => ?_⟩⟩
    rw [h.none_of_le (by omega)] at hq
    exact absurd hq (by simp)
  | succ k ih =>
    rw [walk]
    by_cases hlt : p < hi
    · rw [if_pos hlt]
      obtain ⟨n, hn⟩ := Option.isSome_iff_exists.mp (hp hlt)
      have hpos := (h.bounds hn).1
      rw [hstep hn]
      obtain ⟨hsorted, hmem⟩ := ih (p := p + n) (h.next hn) (by omega) (by omega)
      refine ⟨List.pairwise_cons.mpr ⟨fun q hq => ?_, hsorted⟩, fun q => ?_⟩
      · have := ((hmem q).mp hq).1
        omega
      · rw [List.mem_cons, hmem]
        constructor
        · rintro (rfl | ⟨hle, hq⟩)
          · exact ⟨Nat.le_refl q, hp hlt⟩
          · exact ⟨by omega, hq⟩
        · rintro ⟨hle, hq⟩
          by_cases hqp : q = p
          · exact Or.inl hqp
          · refine Or.inr ⟨?_, hq⟩
            by_contra hcon
            rw [h.sep hn (by omega) (by omega)] at hq
            exact absurd hq (by simp)
    · rw [if_neg hlt]
      refine ⟨List.Pairwise.nil, fun q => ⟨fun hq => absurd hq (by simp), fun ⟨hle, hq⟩ => ?_⟩⟩
      rw [h.none_of_le (by omega)] at hq
      exact absurd hq (by simp)

/-- **It stops exactly at the end.** -/
theorem walkEnd_eq (h : Tiling lo hi len) (hstep : ∀ {p n}, len p = some n → f p = n) {k p : ℕ}
    (hp : p < hi → (len p).isSome) (hle : p ≤ hi) (hfuel : hi ≤ p + k) : walkEnd f hi k p = hi := by
  induction k generalizing p with
  | zero => exact Nat.le_antisymm hle hfuel
  | succ k ih =>
    rw [walkEnd]
    split
    · rename_i hlt
      obtain ⟨n, hn⟩ := Option.isSome_iff_exists.mp (hp hlt)
      have hbounds := h.bounds hn
      rw [hstep hn]
      exact ih (h.next hn) (by omega) (by omega)
    · omega

end Tiling

/-! ## Partitions by a list of regions -/

/-- The regions `rs`, given as `(start, length)`, cover every point of `[lo, hi)` exactly once and no
other point. -/
def IsPartition (lo hi : ℕ) (rs : List (ℕ × ℕ)) : Prop :=
  ∀ x, rs.countP (fun r => decide (r.1 ≤ x ∧ x < r.1 + r.2)) = if lo ≤ x ∧ x < hi then 1 else 0

/-- The regions `rs` are the tiles that start in `K`, each once. -/
structure Enumerates (len : ℕ → Option ℕ) (rs : List (ℕ × ℕ)) (K : ℕ → Prop) : Prop where
  nodup : (rs.map Prod.fst).Nodup
  tile : ∀ {r}, r ∈ rs → K r.1 ∧ len r.1 = some r.2
  all : ∀ {p}, K p → p ∈ rs.map Prod.fst

/-- A list of objects enumerates tiles if its objects have different starts. -/
theorem Enumerates.of_map {α : Type} {len : ℕ → Option ℕ} {K : ℕ → Prop} {xs : List α}
    {f : α → ℕ × ℕ} (hnodup : xs.Nodup)
    (hinj : ∀ x ∈ xs, ∀ y ∈ xs, (f x).1 = (f y).1 → x = y)
    (htile : ∀ x ∈ xs, K (f x).1 ∧ len (f x).1 = some (f x).2)
    (hall : ∀ p, K p → ∃ x ∈ xs, (f x).1 = p) : Enumerates len (xs.map f) K := by
  refine ⟨?_, fun {r} hr => ?_, fun {p} hp => ?_⟩
  · rw [List.map_map]
    exact hnodup.map_on hinj
  · obtain ⟨x, hx, rfl⟩ := List.mem_map.mp hr
    exact htile x hx
  · obtain ⟨x, hx, rfl⟩ := hall p hp
    exact List.mem_map.mpr ⟨f x, List.mem_map_of_mem hx, rfl⟩

/-- Two lists for two disjoint kinds of tiles. -/
theorem Enumerates.append {len : ℕ → Option ℕ} {rs rs' : List (ℕ × ℕ)} {K K' : ℕ → Prop}
    (h : Enumerates len rs K) (h' : Enumerates len rs' K') (hdisj : ∀ p, K p → ¬ K' p) :
    Enumerates len (rs ++ rs') fun p => K p ∨ K' p := by
  refine ⟨?_, fun {r} hr => ?_, fun {p} hp => ?_⟩
  · rw [List.map_append, List.nodup_append']
    refine ⟨h.nodup, h'.nodup, fun p hp hp' => ?_⟩
    obtain ⟨r, hr, rfl⟩ := List.mem_map.mp hp
    obtain ⟨r', hr', heq⟩ := List.mem_map.mp hp'
    exact hdisj r.1 (h.tile hr).1 (heq ▸ (h'.tile hr').1)
  · rcases List.mem_append.mp hr with hr | hr
    · exact ⟨Or.inl (h.tile hr).1, (h.tile hr).2⟩
    · exact ⟨Or.inr (h'.tile hr).1, (h'.tile hr).2⟩
  · rw [List.map_append, List.mem_append]
    exact hp.imp h.all h'.all

/-- **A list that holds each tile exactly once is a partition.** -/
theorem Tiling.isPartition {lo hi : ℕ} {len : ℕ → Option ℕ} (h : Tiling lo hi len)
    {rs : List (ℕ × ℕ)} {K : ℕ → Prop} (henum : Enumerates len rs K)
    (hK : ∀ p, (len p).isSome → K p) : IsPartition lo hi rs := by
  intro x
  by_cases hx : lo ≤ x ∧ x < hi
  · rw [if_pos hx]
    obtain ⟨p, n, hp, hle, hlt⟩ := h.cover hx.1 hx.2
    -- a region of the list covers `x` exactly when it starts at `p`
    have hiff : ∀ r ∈ rs, decide (r.1 ≤ x ∧ x < r.1 + r.2) = true ↔ (r.1 == p) = true := by
      intro r hr
      have hr' := (henum.tile hr).2
      simp only [decide_eq_true_eq, beq_iff_eq]
      constructor
      · rintro ⟨h1, h2⟩
        by_contra hne
        have := h.disjoint hr' hp hne
        omega
      · intro heq
        have hlen : r.2 = n := by
          rw [heq, hp] at hr'
          simpa using hr'.symm
        omega
    have hmem : p ∈ rs.map Prod.fst := henum.all (hK p (by rw [hp]; rfl))
    have hcount : (rs.map Prod.fst).count p = 1 := List.count_eq_one_of_mem henum.nodup hmem
    rw [List.count_eq_countP, List.countP_map] at hcount
    rw [List.countP_congr hiff]
    exact hcount
  · rw [if_neg hx, List.countP_eq_zero]
    intro r hr
    have hb := h.bounds (henum.tile hr).2
    simp only [decide_eq_true_eq]
    omega
