import NvmMalloc.Headers

/-!
# How the layout evolves

No operation merges tiles or moves one.  A page run may shrink, change its owner or become a run, a huge
region may shrink or change its owner, and new tiles appear inside old ones or at the end of the heap.
`Layout.Refines` is this relation between the layouts before and after, and `ArenaInv` is what the
headers say about the arenas as long as only arena 0 adds chunks to itself.
-/

namespace NvmMalloc

open Memory

variable {L L' L'' : Layout} {m m' m'' : Mem} {C C' : Prop} {p q c n : ℕ} {t u : Tile}

/-! ## Tiles that stay -/

/-- What a tile may have turned into at a later time. -/
inductive Tile.Becomes : Tile → Tile → Prop
  | same (t : Tile) : Becomes t t
  | huge {n n' : ℕ} {o o' : Owner} : Becomes (.huge n o) (.huge n' o')
  | block {n n' : ℕ} {o o' : Owner} : Becomes (.block n o) (.block n' o')
  | run {n k : ℕ} {o : Owner} : Becomes (.block n o) (.run k)

theorem Tile.Becomes.trans {v : Tile} (h : t.Becomes u) (h' : u.Becomes v) : t.Becomes v := by
  cases h with
  | same => exact h'
  | huge => cases h' <;> exact .huge
  | block =>
    cases h' with
    | run => exact .run
    | _ => exact .block
  | run => cases h' with | same => exact .run

/-- A pointer to a tile is a pointer to what it has become. -/
theorem Tile.Becomes.names {x : ℕ} (h : t.Becomes u) (hx : Names x p t) : Names x p u := by
  cases h with
  | run =>
    simp only [Names] at hx ⊢
    omega
  | _ => exact hx

/-- Every tile of `L` is still a tile of `L'`. -/
def Layout.Refines (L L' : Layout) : Prop := ∀ p t, L p = some t → ∃ u, L' p = some u ∧ t.Becomes u

namespace Layout.Refines

theorem refl (L : Layout) : L.Refines L := fun _ t ht => ⟨t, ht, .same t⟩

theorem trans (h : L.Refines L') (h' : L'.Refines L'') : L.Refines L'' := by
  intro p t ht
  obtain ⟨u, hu, htu⟩ := h p t ht
  obtain ⟨v, hv, huv⟩ := h' p u hu
  exact ⟨v, hv, htu.trans huv⟩

theorem set (hp : L p = some t) (hu : t.Becomes u) : L.Refines (L.set p u) := by
  intro q v hv
  by_cases hq : q = p
  · subst hq
    rw [hp, Option.some.injEq] at hv
    exact ⟨u, Layout.set_self, hv ▸ hu⟩
  · exact ⟨v, by rwa [Layout.set_of_ne hq], .same v⟩

theorem add (hp : L p = none) : L.Refines (L.set p u) := by
  intro q v hv
  have hq : q ≠ p := fun hq => by rw [hq, hp] at hv; exact absurd hv (by simp)
  exact ⟨v, by rwa [Layout.set_of_ne hq], .same v⟩

/-- A pointer that names a tile still names one. -/
theorem logged {x : ℕ} (h : L.Refines L') (hx : Logged L x) : Logged L' x := by
  obtain ⟨p, t, ht, hnames⟩ := hx
  obtain ⟨u, hu, htu⟩ := h p t ht
  exact ⟨p, u, hu, htu.names hnames⟩

end Layout.Refines

/-! ## Arenas in headers -/

/-- The arena that chunk `c` belongs to when only arena 0 adds chunks to itself. -/
def chunkArena (c : ℕ) : ℕ := if c < initialArenas then c else 0

/-- The header of a page run or a run names the arena of its chunk, which is the one whose pool a free
page run is in. -/
def ArenaTile (m : Mem) (p : ℕ) : Tile → Prop
  | .block _ o => field m (4096 * p) blockArenaIdF = chunkArena (p / 1024) ∧
      ∀ a, o = .pool a → a = chunkArena (p / 1024)
  | .run _ => field m (4096 * p) runArenaIdF = chunkArena (p / 1024)
  | _ => True

theorem ArenaTile.congr (h : ArenaTile m p t) (heq : EqOn m m' (4096 * p) 64) : ArenaTile m' p t := by
  cases t with
  | block n o => exact ⟨by rw [field_eqOn heq (by decide)]; exact h.1, h.2⟩
  | run k => exact (field_eqOn heq (by decide)).trans h
  | _ => trivial

/-- A page run with the same arena in its header and another owner. -/
theorem ArenaTile.block {n' : ℕ} {o o' : Owner} (h : ArenaTile m p (.block n o))
    (heq : field m' (4096 * p) blockArenaIdF = field m (4096 * p) blockArenaIdF)
    (ho : ∀ a, o' = .pool a → a = chunkArena (p / 1024)) : ArenaTile m' p (.block n' o') :=
  ⟨heq.trans h.1, ho⟩

/-- Every header names the arena of its chunk. -/
def ArenaInv (L : Layout) (m : Mem) : Prop := ∀ p t, L p = some t → ArenaTile m p t

/-! ## Evolution -/

/-- The layout and the memory before and after a call: every tile is still there and, given `C`, the
headers go on naming the arenas of their chunks. -/
structure Evolves (C : Prop) (L : Layout) (m : Mem) (L' : Layout) (m' : Mem) : Prop where
  refines : L.Refines L'
  arenas : C → ArenaInv L m → ArenaInv L' m'

namespace Evolves

theorem refl (C : Prop) (L : Layout) (m : Mem) : Evolves C L m L m := ⟨.refl L, fun _ h => h⟩

/-- The condition of the second part may rest on the arenas before it. -/
theorem trans (h : Evolves C L m L' m') (hc : C → ArenaInv L m → C') (h' : Evolves C' L' m' L'' m'') :
    Evolves C L m L'' m'' :=
  ⟨h.refines.trans h'.refines, fun hC ha => h'.arenas (hc hC ha) (h.arenas hC ha)⟩

theorem imp (h : Evolves C L m L' m') (hc : C' → C) : Evolves C' L m L' m' :=
  ⟨h.refines, fun hC => h.arenas (hc hC)⟩

/-- Headers that stay as they are. -/
theorem headers (heq : ∀ q t, L q = some t → EqOn m m' (4096 * q) 64) : Evolves C L m L m' :=
  ⟨.refl L, fun _ ha q t ht => (ha q t ht).congr (heq q t ht)⟩

theorem body {a : ℕ} (hok : L.Ok c) (hbody : L.Body a n) (heq : EqOff m m' a n) : Evolves C L m L m' :=
  headers fun _ _ ht => hbody.eqOn hok heq ht

/-- One tile changes with its header. -/
theorem set (hok : L.Ok c) (hp : L p = some t) (hu : t.Becomes u) (heq : EqOff m m' (4096 * p) 64)
    (harena : C → ArenaTile m p t → ArenaTile m' p u) : Evolves C L m (L.set p u) m' := by
  refine ⟨.set hp hu, fun hC ha q v hv => ?_⟩
  rcases Layout.set_eq_some hv with ⟨rfl, rfl⟩ | ⟨hne, hv⟩
  · exact harena hC (ha q t hp)
  · exact (ha q v hv).congr (hok.eqOn_header heq hp hv hne)

/-- A new tile. -/
theorem add (hp : L p = none) (heq : ∀ q t, L q = some t → EqOn m m' (4096 * q) 64)
    (harena : C → ArenaInv L m → ArenaTile m' p u) : Evolves C L m (L.set p u) m' := by
  refine ⟨.add hp, fun hC ha q v hv => ?_⟩
  rcases Layout.set_eq_some hv with ⟨rfl, rfl⟩ | ⟨-, hv⟩
  · exact harena hC ha
  · exact (ha q v hv).congr (heq q v hv)

end Evolves

end NvmMalloc
