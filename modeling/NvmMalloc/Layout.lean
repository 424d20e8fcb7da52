import NvmMalloc.Logic
import NvmMalloc.Lib.Tiling

/-!
# Layout of the heap

The pages of the heap are tiled by chunk headers, huge regions, page runs and runs.  No operation ever
merges tiles: a tile only loses its tail to a new tile, changes owner, or is appended at the end of the
heap.  A `Layout` names the tiles by their first page.  It is not part of the program; the invariants of
this development say that NVM, the free pools and the client's ledger agree with one.

What the layout demands of NVM are the headers, one cache line at the start of each tile.  `Quiet` is
what a header holds between two calls and `HdrOk` what it may hold when a crash cuts a call.
-/

namespace NvmMalloc

open Memory

/-! ## Tiles -/

/-- Who owns a page run or a huge region: a free pool (of an arena), the call in progress, or the
client. -/
inductive Owner where
  | pool (a : ℕ)
  | held
  | user (active : Bool)
deriving DecidableEq

/-- A tile: the header page of an arena chunk, `n` chunks, `n` pages, a run with VHeader `k`, or `n`
pages at which the recovery thread cannot make progress. -/
inductive Tile where
  | arena
  | huge (n : ℕ) (o : Owner)
  | block (n : ℕ) (o : Owner)
  | run (k : ℕ)
  | stuck (n : ℕ)
deriving DecidableEq

/-- The pages of a tile. -/
def Tile.len : Tile → ℕ
  | .arena => 1
  | .huge n _ => 1024 * n
  | .block n _ => n
  | .run _ => 1
  | .stuck n => n

@[simp] theorem Tile.len_arena : Tile.arena.len = 1 := rfl

@[simp] theorem Tile.len_huge (n : ℕ) (o : Owner) : (Tile.huge n o).len = 1024 * n := rfl

@[simp] theorem Tile.len_block (n : ℕ) (o : Owner) : (Tile.block n o).len = n := rfl

@[simp] theorem Tile.len_run (k : ℕ) : (Tile.run k).len = 1 := rfl

@[simp] theorem Tile.len_stuck (n : ℕ) : (Tile.stuck n).len = n := rfl

/-- Where a tile may start: chunk headers and huge regions at chunk boundaries, page runs and runs
behind the header page of a chunk and inside it. -/
def Tile.Fits (p : ℕ) : Tile → Prop
  | .arena => p % 1024 = 0
  | .huge _ _ => p % 1024 = 0
  | .block n _ => p % 1024 ≠ 0 ∧ p % 1024 + n ≤ 1024
  | .run _ => p % 1024 ≠ 0
  | .stuck _ => True

/-- The tiles of the heap by their first page. -/
abbrev Layout := ℕ → Option Tile

/-- Replace or add the tile at `p`. -/
def Layout.set (L : Layout) (p : ℕ) (t : Tile) : Layout := Function.update L p (some t)

/-- The tiles cover the pages of a heap of `nextChunk` chunks. -/
structure Layout.Ok (L : Layout) (nextChunk : ℕ) : Prop where
  tiling : Tiling 0 (1024 * nextChunk) fun p => (L p).map Tile.len
  fits : ∀ {p t}, L p = some t → t.Fits p

namespace Layout

variable {L : Layout} {c p q : ℕ} {t u : Tile}

@[simp] theorem set_self : L.set p t p = some t := Function.update_self ..

@[simp] theorem set_of_ne (h : q ≠ p) : L.set p t q = L q := Function.update_of_ne h ..

/-- The tiles after `set`. -/
theorem set_eq_some (h : L.set p t q = some u) : (q = p ∧ u = t) ∨ (q ≠ p ∧ L q = some u) := by
  by_cases hq : q = p
  · subst hq
    rw [set_self] at h
    exact Or.inl ⟨rfl, (Option.some.inj h).symm⟩
  · rw [set_of_ne hq] at h
    exact Or.inr ⟨hq, h⟩

theorem map_len_set :
    (fun q => (L.set p t q).map Tile.len) =
      Function.update (fun q => (L q).map Tile.len) p (some t.len) := by
  funext q
  by_cases hq : q = p
  · subst hq; simp
  · rw [set_of_ne hq, Function.update_of_ne hq]

theorem map_len (h : L p = some t) : (L p).map Tile.len = some t.len := by
  rw [h, Option.map_some]

namespace Ok

theorem disjoint (h : L.Ok c) (hp : L p = some t) (hq : L q = some u) (hne : p ≠ q) :
    p + t.len ≤ q ∨ q + u.len ≤ p :=
  h.tiling.disjoint (map_len hp) (map_len hq) hne

theorem len_pos (h : L.Ok c) (hp : L p = some t) : 0 < t.len := (h.tiling.bounds (map_len hp)).1

theorem add_len_le (h : L.Ok c) (hp : L p = some t) : p + t.len ≤ 1024 * c :=
  (h.tiling.bounds (map_len hp)).2.2

theorem eq_none (h : L.Ok c) (hp : 1024 * c ≤ p) : L p = none := by
  have hnone := h.tiling.none_of_le hp
  rwa [Option.map_eq_none_iff] at hnone

/-- The tile after a tile. -/
theorem next (h : L.Ok c) (hp : L p = some t) (hlt : p + t.len < 1024 * c) :
    ∃ u, L (p + t.len) = some u := by
  have hnext := h.tiling.next (map_len hp) hlt
  rw [Option.isSome_map, Option.isSome_iff_exists] at hnext
  exact hnext

/-- The tile at the start of a heap with chunks. -/
theorem first (h : L.Ok c) (hc : 0 < c) : ∃ u, L 0 = some u := by
  have hfirst := h.tiling.first (by omega)
  rw [Option.isSome_map, Option.isSome_iff_exists] at hfirst
  exact hfirst

/-- Inside a tile no other tile starts. -/
theorem none_inside (h : L.Ok c) (hp : L p = some t) (hlt : p < q) (hq : q < p + t.len) :
    L q = none := by
  have hnone := h.tiling.sep (map_len hp) hlt hq
  rwa [Option.map_eq_none_iff] at hnone

/-- Replacing a tile by one of the same length. -/
theorem relabel (h : L.Ok c) (hp : L p = some t) (hlen : u.len = t.len) (hfits : u.Fits p) :
    (L.set p u).Ok c := by
  refine ⟨?_, fun hq => ?_⟩
  · rw [map_len_set, hlen]
    refine h.tiling.congr fun q => ?_
    by_cases hq : q = p
    · subst hq
      rw [Function.update_self, map_len hp]
    · rw [Function.update_of_ne hq]
  · rcases set_eq_some hq with ⟨rfl, rfl⟩ | ⟨-, hq⟩
    · exact hfits
    · exact h.fits hq

/-- Cutting a tile off the tail of another one. -/
theorem split {k : ℕ} {u v : Tile} (h : L.Ok c) (hp : L p = some t) (hk : 0 < k) (hkt : k < t.len)
    (h₁ : u.len = t.len - k) (h₂ : v.len = k) (hfits₁ : u.Fits p)
    (hfits₂ : v.Fits (p + t.len - k)) :
    ((L.set p u).set (p + t.len - k) v).Ok c := by
  refine ⟨?_, fun hq => ?_⟩
  · rw [map_len_set, map_len_set, h₁, h₂]
    exact h.tiling.split (map_len hp) hk hkt
  · rcases set_eq_some hq with ⟨rfl, rfl⟩ | ⟨-, hq⟩
    · exact hfits₂
    · rcases set_eq_some hq with ⟨rfl, rfl⟩ | ⟨-, hq⟩
      · exact hfits₁
      · exact h.fits hq

/-- Growing the heap by `k` chunks. -/
theorem append {k : ℕ} (h : L.Ok c) (hk : 0 < k) (hlen : t.len = 1024 * k)
    (hfits : t.Fits (1024 * c)) : (L.set (1024 * c) t).Ok (c + k) := by
  refine ⟨?_, fun hq => ?_⟩
  · rw [map_len_set, hlen, Nat.mul_add]
    exact h.tiling.append (Nat.zero_le _) (by omega)
  · rcases set_eq_some hq with ⟨rfl, rfl⟩ | ⟨-, hq⟩
    · exact hfits
    · exact h.fits hq

end Ok

/-! ## Bytes outside the headers -/

/-- The bytes `[a, a + n)` lie in one tile behind its header, and not in the header page of a chunk. -/
def Body (L : Layout) (a n : ℕ) : Prop :=
  ∃ p t, L p = some t ∧ t ≠ .arena ∧ 4096 * p + 64 ≤ a ∧ a + n ≤ 4096 * (p + t.len)

/-- Every word lies in the body of a tile. -/
def Bodies (L : Layout) (ws : List (ℕ × ℕ)) : Prop := ∀ x ∈ ws, L.Body x.1 8

/-- The body of a tile is disjoint from every header. -/
theorem Body.disjoint_header {a n : ℕ} (h : L.Ok c) (hbody : L.Body a n) (hq : L q = some u) :
    4096 * q + 64 ≤ a ∨ a + n ≤ 4096 * q := by
  obtain ⟨p, t, hp, -, hlo, hhi⟩ := hbody
  by_cases hpq : p = q
  · subst hpq; omega
  · have hd := h.disjoint hp hq hpq
    have hpos := h.len_pos hq
    omega

/-- The body of a tile is disjoint from the header pages of the chunks. -/
theorem Body.disjoint_arena {a n : ℕ} (h : L.Ok c) (hbody : L.Body a n) (hq : L q = some .arena) :
    4096 * (q + 1) ≤ a ∨ a + n ≤ 4096 * q := by
  obtain ⟨p, t, hp, hne, hlo, hhi⟩ := hbody
  have hpq : p ≠ q := by
    intro heq
    subst heq
    exact hne (Option.some.inj (hp.symm.trans hq))
  have hd := h.disjoint hp hq hpq
  rw [Tile.len_arena] at hd
  omega

theorem Body.lt {a n : ℕ} (h : L.Ok c) (hbody : L.Body a n) : a + n ≤ 4194304 * c := by
  obtain ⟨p, t, hp, -, -, hhi⟩ := hbody
  have := h.add_len_le hp
  lia

/-- A store into a body leaves the headers alone. -/
theorem Body.eqOn {a n : ℕ} {m m' : Mem} (h : L.Ok c) (hbody : L.Body a n) (heq : EqOff m m' a n)
    (hq : L q = some u) : EqOn m m' (4096 * q) 64 :=
  heq.eqOn (by have := hbody.disjoint_header h hq; omega)

/-- Two headers do not overlap. -/
theorem Ok.eqOn_header {m m' : Mem} (h : L.Ok c) (heq : EqOff m m' (4096 * p) 64)
    (hp : L p = some t) (hq : L q = some u) (hne : q ≠ p) : EqOn m m' (4096 * q) 64 := by
  have hd := h.disjoint hp hq (Ne.symm hne)
  have hpos := h.len_pos hp
  have hpos' := h.len_pos hq
  exact heq.eqOn (by omega)

end Layout

end NvmMalloc
