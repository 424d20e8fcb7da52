import NvmMalloc.Headers

/-!
# The walks of the recovery thread

Reference: `src/nvm_malloc.c` (`nvm_recovery_thread`).

The recovery thread walks over the chunks, and over the pages of each arena chunk, from header to header.
`chunkHeaders` and `pageHeaders` are the chunks and pages it meets, read off NVM alone.  If NVM agrees
with a layout, they are the tiles.
-/

namespace NvmMalloc

open Memory

/-! ## What the walks meet -/

/-- The usage bits of the header on page `p`. -/
def usageAt (m : Mem) (p : ℕ) : ℕ := getUsage (field m (4096 * p) stateF)

/-- The chunks from a header in the chunk walk to the next one. -/
def chunkStep (m : Mem) (c : ℕ) : ℕ :=
  if usageAt m (1024 * c) = usageArena then 1 else field m (4096 * (1024 * c)) nChunksF

/-- The pages from a header in the page walk to the next one. -/
def pageStep (m : Mem) (p : ℕ) : ℕ :=
  if usageAt m p = usageRun then 1 else field m (4096 * p) nPagesF

/-- The chunks whose headers the chunk walk meets. -/
def chunkHeaders (nvm : Nvm) : List ℕ := walk (chunkStep nvm.mem) nvm.nextChunk nvm.nextChunk 0

/-- The arena chunks. -/
def arenaChunks (nvm : Nvm) : List ℕ :=
  (chunkHeaders nvm).filter fun c => usageAt nvm.mem (1024 * c) = usageArena

/-- The pages of arena chunk `c` whose headers the page walk meets, from page 1 on. -/
def pageHeaders (m : Mem) (c : ℕ) : List ℕ := walk (pageStep m) (1024 * (c + 1)) 1024 (1024 * c + 1)

/-! ## Walks along a layout -/

/-- The chunks of a tile that starts at a chunk boundary. -/
def Tile.chunks : Tile → ℕ
  | .arena => 1
  | .huge n _ => n
  | _ => 0

/-- NVM agrees with the layout, and there is no tile at which the walk is stuck. -/
structure Aligned (L : Layout) (m : Mem) (n : ℕ) : Prop where
  ok : L.Ok n
  hdr : ∀ {p t}, L p = some t → HdrOk m p t
  unstuck : ∀ p k, L p ≠ some (.stuck k)

section

variable {L : Layout} {m : Mem} {n c p : ℕ} {t : Tile}

/-- The usage bits tell the kinds of tiles apart. -/
theorem HdrOk.usage (h : HdrOk m p t) (hne : ∀ k, t ≠ .stuck k) :
    (usageAt m p = usageArena ↔ t = .arena) ∧ (usageAt m p = usageRun ↔ ∃ k, t = .run k) := by
  unfold usageAt
  cases t with
  | arena =>
    simp only [HdrOk] at h
    rw [h]
    simp
  | huge n o =>
    have hst := h.2
    simp only [List.mem_cons, List.not_mem_nil, or_false] at hst
    rcases hst with hst | hst | hst | hst | hst <;> rw [hst] <;> simp [getUsage]
  | block n o =>
    have hst := h.2.2
    simp only [List.mem_cons, List.not_mem_nil, or_false] at hst
    rcases hst with hst | hst | hst | hst | hst | hst <;> rw [hst] <;> simp [getUsage]
  | run k =>
    have hst := h.2.1
    simp only [List.mem_cons, List.not_mem_nil, or_false] at hst
    rcases hst with hst | hst | hst | hst | hst <;> rw [hst] <;> simp [getUsage]
  | stuck k => exact absurd rfl (hne k)

/-- A tile that ends behind the chunk boundary it does not start at is a huge region. -/
theorem Layout.Ok.crosses (h : L.Ok n) (hp : L p = some t) (hne : ∀ k, t ≠ .stuck k)
    (hlt : p < 1024 * c) (hc : 1024 * c < p + t.len) : ∃ k o, t = .huge k o := by
  have hfits := h.fits hp
  cases t with
  | arena =>
    simp only [Tile.len_arena] at hc
    omega
  | huge k o => exact ⟨k, o, rfl⟩
  | block k o =>
    simp only [Tile.Fits, Tile.len_block] at hfits hc
    omega
  | run k =>
    simp only [Tile.len_run] at hc
    omega
  | stuck k => exact absurd rfl (hne k)

namespace Aligned

/-- The chunk behind an arena chunk has a header. -/
theorem boundary (h : Aligned L m n) (hc : L (1024 * c) = some .arena) (hlt : c + 1 < n) :
    (L (1024 * (c + 1))).isSome := by
  obtain ⟨q, k, hq, hle, hlt'⟩ := h.ok.tiling.cover (x := 1024 * (c + 1)) (Nat.zero_le _) (by omega)
  obtain ⟨t, ht, rfl⟩ := Option.map_eq_some_iff.mp hq
  by_cases heq : q = 1024 * (c + 1)
  · rw [← heq, ht]
    rfl
  · obtain ⟨k, o, rfl⟩ := h.ok.crosses ht (fun j hj => h.unstuck q j (hj ▸ ht)) (by omega) hlt'
    -- it would also cover the header of the arena chunk
    have hfits : q % 1024 = 0 := h.ok.fits ht
    have hne : q ≠ 1024 * c := fun hqc => by
      rw [hqc, hc] at ht
      exact absurd ht (by simp)
    have hd := h.ok.disjoint ht hc hne
    rw [Tile.len_arena] at hd
    omega

/-- What starts at a chunk boundary. -/
theorem chunk_tile (h : Aligned L m n) (hc : L (1024 * c) = some t) :
    t = .arena ∨ ∃ k o, t = .huge k o := by
  have hfits := h.ok.fits hc
  cases t with
  | arena => exact Or.inl rfl
  | huge k o => exact Or.inr ⟨k, o, rfl⟩
  | block k o =>
    simp only [Tile.Fits] at hfits
    omega
  | run k =>
    simp only [Tile.Fits] at hfits
    omega
  | stuck k => exact absurd hc (h.unstuck _ _)

/-- The chunks are tiled by arena chunks and huge regions. -/
theorem chunkTiling (h : Aligned L m n) : Tiling 0 n fun c => (L (1024 * c)).map Tile.chunks := by
  -- in pages, a tile at a chunk boundary is followed by the next boundary
  have hnext : ∀ {c t}, L (1024 * c) = some t → 0 < t.chunks ∧ c + t.chunks ≤ n ∧
      (c + t.chunks < n → (L (1024 * (c + t.chunks))).isSome) ∧
      ∀ d, c < d → d < c + t.chunks → L (1024 * d) = none := by
    intro c t hc
    have hpos := h.ok.len_pos hc
    have hend := h.ok.add_len_le hc
    rcases h.chunk_tile hc with rfl | ⟨k, o, rfl⟩
    · simp only [Tile.chunks, Tile.len_arena] at hend ⊢
      exact ⟨Nat.one_pos, by omega, h.boundary hc, fun d hd hd' => by omega⟩
    · simp only [Tile.chunks, Tile.len_huge] at hend hpos ⊢
      refine ⟨by omega, by omega, fun hlt => ?_, fun d hd hd' => ?_⟩
      · obtain ⟨u, hu⟩ := h.ok.next hc (by rw [Tile.len_huge]; omega)
        rw [Tile.len_huge, ← Nat.mul_add] at hu
        rw [hu]
        rfl
      · exact h.ok.none_inside hc (by omega) (by rw [Tile.len_huge]; omega)
  refine ⟨fun hn => ?_, fun hc => ?_, fun hc hlt => ?_, fun hc hlt hq => ?_⟩
  · obtain ⟨u, hu⟩ := h.ok.first hn
    rw [Nat.mul_zero, hu]
    rfl
  · obtain ⟨t, ht, rfl⟩ := Option.map_eq_some_iff.mp hc
    exact ⟨(hnext ht).1, Nat.zero_le _, (hnext ht).2.1⟩
  · obtain ⟨t, ht, rfl⟩ := Option.map_eq_some_iff.mp hc
    rw [Option.isSome_map]
    exact (hnext ht).2.2.1 hlt
  · obtain ⟨t, ht, rfl⟩ := Option.map_eq_some_iff.mp hc
    rw [(hnext ht).2.2.2 _ hlt hq]
    rfl

/-- The pages of an arena chunk behind its header are tiled by page runs and runs. -/
theorem pageTiling (h : Aligned L m n) (hc : L (1024 * c) = some .arena) :
    Tiling (1024 * c + 1) (1024 * (c + 1)) fun p =>
      if 1024 * c + 1 ≤ p ∧ p < 1024 * (c + 1) then (L p).map Tile.len else none := by
  have hlt := h.ok.add_len_le hc
  rw [Tile.len_arena] at hlt
  refine h.ok.tiling.restrict (by omega) (fun _ => ?_) fun hend => ?_
  · obtain ⟨u, hu⟩ := h.ok.next hc (by rw [Tile.len_arena]; omega)
    rw [Tile.len_arena] at hu
    rw [hu]
    rfl
  · rw [Option.isSome_map]
    exact h.boundary hc (by omega)

/-- A tile that does not start at a chunk boundary lies in an arena chunk. -/
theorem arena_of_page (h : Aligned L m n) (hp : L p = some t) (hne : p % 1024 ≠ 0) :
    L (1024 * (p / 1024)) = some .arena := by
  have hpos := h.ok.len_pos hp
  have hend := h.ok.add_len_le hp
  obtain ⟨q, k, hq, hle, hlt⟩ := h.chunkTiling.cover (x := p / 1024) (Nat.zero_le _) (by omega)
  obtain ⟨u, hu, rfl⟩ := Option.map_eq_some_iff.mp hq
  rcases h.chunk_tile hu with rfl | ⟨k, o, rfl⟩
  · simp only [Tile.chunks] at hlt
    rwa [show p / 1024 = q by omega]
  · -- a huge region would cover the page
    simp only [Tile.chunks] at hlt
    have hd := h.ok.disjoint hp hu (by omega)
    rw [Tile.len_huge] at hd
    omega

/-- A step of the chunk walk. -/
theorem chunkStep_eq (h : Aligned L m n) (hc : L (1024 * c) = some t) : chunkStep m c = t.chunks := by
  have husage := (h.hdr hc).usage fun k hk => h.unstuck _ k (hk ▸ hc)
  unfold chunkStep
  rcases h.chunk_tile hc with rfl | ⟨k, o, rfl⟩
  · rw [if_pos (husage.1.mpr rfl)]
    rfl
  · rw [if_neg fun hu => absurd (husage.1.mp hu) (by simp), (h.hdr hc).1]
    rfl

/-- What lies behind the header page of an arena chunk. -/
theorem page_tile (h : Aligned L m n) (hp : L p = some t) (hlo : 1024 * c + 1 ≤ p)
    (hhi : p < 1024 * (c + 1)) :
    (∃ k, t = .run k) ∨ ∃ k o, t = .block k o := by
  have hfits := h.ok.fits hp
  cases t with
  | run k => exact Or.inl ⟨k, rfl⟩
  | block k o => exact Or.inr ⟨k, o, rfl⟩
  | arena =>
    simp only [Tile.Fits] at hfits
    omega
  | huge k o =>
    simp only [Tile.Fits] at hfits
    omega
  | stuck k => exact absurd hp (h.unstuck _ _)

/-- A step of the page walk. -/
theorem pageStep_eq (h : Aligned L m n) (hp : L p = some t) (hlo : 1024 * c + 1 ≤ p)
    (hhi : p < 1024 * (c + 1)) : pageStep m p = t.len := by
  have husage := (h.hdr hp).usage fun k hk => h.unstuck _ k (hk ▸ hp)
  unfold pageStep
  rcases h.page_tile hp hlo hhi with ⟨k, rfl⟩ | ⟨k, o, rfl⟩
  · rw [if_pos (husage.2.mpr ⟨k, rfl⟩)]
    rfl
  · rw [if_neg fun hu => absurd (husage.2.mp hu) (by simp), (h.hdr hp).1]
    rfl

end Aligned

/-- **The chunk walk meets the tiles at chunk boundaries, each once.** -/
theorem Aligned.chunkHeaders {nvm : Nvm} (h : Aligned L nvm.mem nvm.nextChunk) :
    (chunkHeaders nvm).Pairwise (· < ·) ∧ ∀ c, c ∈ chunkHeaders nvm ↔ (L (1024 * c)).isSome := by
  have hwalk := h.chunkTiling.walk_spec (f := chunkStep nvm.mem) (k := nvm.nextChunk) (p := 0)
    (fun hc => ?_) h.chunkTiling.first (Nat.le_refl 0) (by omega)
  · refine ⟨hwalk.1, fun c => (hwalk.2 c).trans ?_⟩
    rw [Option.isSome_map]
    exact and_iff_right (Nat.zero_le c)
  · obtain ⟨t, ht, rfl⟩ := Option.map_eq_some_iff.mp hc
    exact h.chunkStep_eq ht

/-- **The arena chunks are the arena tiles.** -/
theorem Aligned.arenaChunks {nvm : Nvm} (h : Aligned L nvm.mem nvm.nextChunk) :
    (arenaChunks nvm).Pairwise (· < ·) ∧ ∀ c, c ∈ arenaChunks nvm ↔ L (1024 * c) = some .arena := by
  obtain ⟨hsorted, hmem⟩ := h.chunkHeaders
  refine ⟨hsorted.filter _, fun c => ?_⟩
  unfold NvmMalloc.arenaChunks
  rw [List.mem_filter, hmem, decide_eq_true_eq]
  constructor
  · rintro ⟨hsome, husage⟩
    obtain ⟨t, ht⟩ := Option.isSome_iff_exists.mp hsome
    rw [ht, ((h.hdr ht).usage fun k hk => h.unstuck _ k (hk ▸ ht)).1.mp husage]
  · intro hc
    refine ⟨by rw [hc]; rfl, ?_⟩
    exact ((h.hdr hc).usage (by simp)).1.mpr rfl

/-- **The page walk meets the tiles of its chunk, each once.** -/
theorem Aligned.pageHeaders (h : Aligned L m n) (hc : L (1024 * c) = some .arena) :
    (pageHeaders m c).Pairwise (· < ·) ∧ ∀ p, p ∈ pageHeaders m c ↔
      (1024 * c + 1 ≤ p ∧ p < 1024 * (c + 1)) ∧ (L p).isSome := by
  have htiling := h.pageTiling hc
  have hwalk := htiling.walk_spec (f := pageStep m) (k := 1024) (fun hp => ?_) htiling.first
    (Nat.le_refl _) (by omega)
  · refine ⟨hwalk.1, fun p => (hwalk.2 p).trans ?_⟩
    by_cases hin : 1024 * c + 1 ≤ p ∧ p < 1024 * (c + 1)
    · rw [if_pos hin, Option.isSome_map]
      exact ⟨fun hp => ⟨hin, hp.2⟩, fun hp => ⟨hin.1, hp.2⟩⟩
    · rw [if_neg hin]
      exact ⟨fun hp => absurd hp.2 (by simp), fun hp => absurd hp.1 hin⟩
  · split at hp
    · rename_i hin
      obtain ⟨t, ht, rfl⟩ := Option.map_eq_some_iff.mp hp
      exact h.pageStep_eq ht hin.1 hin.2
    · exact absurd hp (by simp)

end

end NvmMalloc
