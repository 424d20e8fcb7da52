import NvmMalloc.Reachability
import NvmMalloc.Walk

/-!
# Who owns the space

Reference: `src/arena.c`, `src/nvm_malloc.c`.

The chunks of the heap and the pages of its arena chunks, listed by owner: what the walks over NVM meet,
what the client holds, and what the free trees hold.  Between any two calls the lists are partitions.
-/

namespace NvmMalloc

open Memory

/-! ## The lists -/

/-- The pages of arena chunk `c` that are runs. -/
def runPages (m : Mem) (c : ℕ) : List ℕ := (pageHeaders m c).filter fun p => usageAt m p = usageRun

/-- The outstanding huge regions. -/
def Sys.hugeRegions (s : Sys) : List Region := s.live.filter fun r => sclassLargeMax < r.nBytes

/-- The outstanding large regions in chunk `c`. -/
def Sys.largeRegions (s : Sys) (c : ℕ) : List Region := s.live.filter fun r =>
  sclassSmallMax < r.nBytes ∧ r.nBytes ≤ sclassLargeMax ∧ r.ptr / chunkSize = c

/-- The nodes of all trees of free page runs in chunk `c`. -/
def Sys.freePages (s : Sys) (c : ℕ) : List ArenaBlock := (List.range initialArenas).flatMap fun a =>
  (s.w.arenas a).freePageruns.toList.filter fun x => x.nvmBlock / chunkSize = c

/-- The chunks as first chunk and size: arena chunks, outstanding huge regions with the size in their
header, and the nodes of `free_chunks`. -/
def Sys.chunkRegions (s : Sys) : List (ℕ × ℕ) :=
  (arenaChunks s.w.nvm).map (fun c => (c, 1)) ++
  (s.hugeRegions.map (fun r =>
    ((r.ptr - headerSize) / chunkSize, field s.w.nvm.mem (r.ptr - headerSize) nChunksF)) ++
  s.w.freeChunks.toList.map fun x => (x.nvmChunk / chunkSize, x.nChunks))

/-- The pages of arena chunk `c` as first page and size: runs, outstanding large regions with the size in
their header, and the nodes of the trees of free page runs. -/
def Sys.pageRegions (s : Sys) (c : ℕ) : List (ℕ × ℕ) :=
  (runPages s.w.nvm.mem c).map (fun p => (p, 1)) ++
  ((s.largeRegions c).map (fun r =>
    ((r.ptr - headerSize) / blockSize, field s.w.nvm.mem (r.ptr - headerSize) nPagesF)) ++
  (s.freePages c).map fun x => (x.nvmBlock / blockSize, x.nPages))

/-- No two spans granted to the client overlap. -/
def SpansDisjoint (live : List Region) : Prop := live.Pairwise fun r r' =>
  r.ptr + grantedLen r.nBytes ≤ r'.ptr ∨ r'.ptr + grantedLen r'.nBytes ≤ r.ptr

/-- The region `r` is slot `i` of the run on page `p` and lies inside the page. -/
def IsSlot (m : Mem) (r : Region) (p i : ℕ) : Prop :=
  field m (4096 * p) nBytesF = roundUp r.nBytes 64 ∧ i < slotsPerRun (roundUp r.nBytes 64) ∧
    r.ptr = 4096 * p + headerSize + roundUp r.nBytes 64 * i ∧
    r.ptr + roundUp r.nBytes 64 ≤ 4096 * (p + 1)

/-- The space of the heap is partitioned among its owners. -/
structure SpacePartition (s : Sys) : Prop where
  chunks : IsPartition 0 s.w.nvm.nextChunk s.chunkRegions
  pages : ∀ c ∈ arenaChunks s.w.nvm, IsPartition (1024 * c + 1) (1024 * (c + 1)) (s.pageRegions c)
  slots : ∀ r ∈ s.live, r.nBytes ≤ sclassSmallMax → ∃ c ∈ arenaChunks s.w.nvm,
    ∃ p ∈ runPages s.w.nvm.mem c, ∃ i, IsSlot s.w.nvm.mem r p i
  distinct : (s.live.map Region.ptr).Nodup
  disjoint : SpansDisjoint s.live

/-! ## Tiles of regions -/

section

variable {L : Layout} {s : Sys}

/-- The size of a region tells the kind of its tile. -/
theorem Placed.kind {m : Mem} {H : ℕ → ArenaRun} {r : Region} {t : Tile} (h : Placed L m H r)
    (hsize : 1 ≤ r.nBytes) (ht : L (r.ptr / 4096) = some t) :
    (r.nBytes ≤ sclassSmallMax ∧ ∃ k, t = .run k) ∨
    (sclassSmallMax < r.nBytes ∧ r.nBytes ≤ sclassLargeMax ∧ r.ptr % 4096 = 64 ∧
      t = .block (roundUp r.nBytes blockSize / blockSize) (.user r.active)) ∨
    (sclassLargeMax < r.nBytes ∧ r.ptr % 4096 = 64 ∧
      t = .huge (chunksFor r.nBytes) (.user r.active)) := by
  cases h with
  | @small hs p k i htile helem hi hptr =>
    rw [hptr, slot_page (le_elemSize hsize helem) hi, htile, Option.some.injEq] at ht
    exact Or.inl ⟨hs, k, ht.symm⟩
  | @large hlo hhi p htile hptr =>
    rw [show r.ptr / 4096 = p by omega, htile, Option.some.injEq] at ht
    exact Or.inr (Or.inl ⟨hlo, hhi, by omega, ht.symm⟩)
  | @huge hlo p htile hptr =>
    rw [show r.ptr / 4096 = p by omega, htile, Option.some.injEq] at ht
    exact Or.inr (Or.inr ⟨hlo, by omega, ht.symm⟩)

/-- Between two calls NVM agrees with the layout. -/
theorem NvmInv.aligned {nvm : Nvm} (h : NvmInv L nvm) : Aligned L nvm.mem nvm.nextChunk :=
  ⟨h.ok, fun hp => (h.quiet hp).hdrOk, fun _ _ hp => h.quiet hp⟩

/-- The tile of an outstanding region. -/
theorem HeapInv.tile_of_region (h : HeapInv L s.w s.live) {r : Region} (hr : r ∈ s.live) :
    ∃ t, L (r.ptr / 4096) = some t ∧ t.Live := by
  obtain ⟨p, t, hp, hlive, rfl, -⟩ := (h.live.placed r hr).span (h.live.size r hr)
  exact ⟨t, hp, hlive⟩

/-! ## Chunks -/

/-- Where an outstanding huge region lies. -/
theorem HeapInv.huge_tile (h : HeapInv L s.w s.live) {r : Region} (hr : r ∈ s.hugeRegions) :
    ∃ c, r.ptr = 4194304 * c + 64 ∧ ∃ n b, L (1024 * c) = some (.huge n (.user b)) := by
  obtain ⟨hr, hlarge⟩ := List.mem_filter.mp hr
  rw [decide_eq_true_eq] at hlarge
  have hsizes : sclassSmallMax ≤ sclassLargeMax := by decide
  obtain ⟨t, ht, -⟩ := h.tile_of_region hr
  rcases (h.live.placed r hr).kind (h.live.size r hr).1 ht with ⟨hs, -⟩ | ⟨-, hs, -⟩ | ⟨-, hmod, rfl⟩
  · omega
  · omega
  · have hfits : r.ptr / 4096 % 1024 = 0 := h.nvm.ok.fits ht
    refine ⟨r.ptr / 4194304, by omega, chunksFor r.nBytes, r.active, ?_⟩
    rwa [show 1024 * (r.ptr / 4194304) = r.ptr / 4096 by omega]

/-- The arena chunks. -/
theorem HeapInv.enumerates_arenas (h : HeapInv L s.w s.live) :
    Enumerates (fun c => (L (1024 * c)).map Tile.chunks)
      ((arenaChunks s.w.nvm).map fun c => (c, 1)) fun c => L (1024 * c) = some .arena := by
  obtain ⟨hsorted, hmem⟩ := h.nvm.aligned.arenaChunks
  refine .of_map (hsorted.imp fun hlt => Nat.ne_of_lt hlt) (fun _ _ _ _ heq => heq) (fun c hc => ?_)
    fun c hc => ⟨c, (hmem c).mpr hc, rfl⟩
  have harena := (hmem c).mp hc
  refine ⟨harena, ?_⟩
  show (L (1024 * c)).map Tile.chunks = some 1
  rw [harena]
  rfl

/-- The outstanding huge regions. -/
theorem HeapInv.enumerates_huge (h : HeapInv L s.w s.live) :
    Enumerates (fun c => (L (1024 * c)).map Tile.chunks)
      (s.hugeRegions.map fun r =>
        ((r.ptr - headerSize) / chunkSize, field s.w.nvm.mem (r.ptr - headerSize) nChunksF))
      fun c => ∃ n b, L (1024 * c) = some (.huge n (.user b)) := by
  have hchunk : ∀ c, (4194304 * c + 64 - headerSize) / chunkSize = c := by
    intro c
    simp only [headerSize, chunkSize]
    omega
  refine .of_map (h.live.nodup.of_map.filter _) (fun r hr r' hr' heq => ?_) (fun r hr => ?_) ?_
  · obtain ⟨c, hptr, -⟩ := h.huge_tile hr
    obtain ⟨c', hptr', -⟩ := h.huge_tile hr'
    refine h.live.eq_of_ptr (List.mem_filter.mp hr).1 (List.mem_filter.mp hr').1 ?_
    simp only [hptr, hptr', hchunk] at heq
    rw [hptr, hptr', heq]
  · obtain ⟨c, hptr, n, b, htile⟩ := h.huge_tile hr
    have hn : field s.w.nvm.mem (4096 * (1024 * c)) nChunksF = n := (h.nvm.quiet htile).1
    have hbase : 4194304 * c + 64 - headerSize = 4096 * (1024 * c) := by
      simp only [headerSize]
      omega
    simp only [hptr, hchunk, htile, hbase ▸ hn]
    exact ⟨⟨n, b, rfl⟩, rfl⟩
  · rintro c ⟨n, b, htile⟩
    obtain ⟨r, hr, hptr⟩ := h.live.huge htile
    have hptr' : r.ptr = 4194304 * c + 64 := by omega
    refine ⟨r, List.mem_filter.mpr ⟨hr, ?_⟩, by simp only [hptr', hchunk]⟩
    rw [decide_eq_true_eq]
    rw [show 1024 * c = r.ptr / 4096 by omega] at htile
    rcases (h.live.placed r hr).kind (h.live.size r hr).1 htile with ⟨-, k, hk⟩ | ⟨-, -, -, hk⟩ |
      ⟨hlo, -⟩
    · exact absurd hk (by simp)
    · exact absurd hk (by simp)
    · exact hlo

/-- The nodes of `free_chunks`. -/
theorem HeapInv.enumerates_freeChunks (h : HeapInv L s.w s.live) :
    Enumerates (fun c => (L (1024 * c)).map Tile.chunks)
      (s.w.freeChunks.toList.map fun x => (x.nvmChunk / chunkSize, x.nChunks))
      fun c => ∃ n, L (1024 * c) = some (.huge n (.pool 0)) := by
  -- a node with its chunk
  have hnode : ∀ {x}, x ∈ s.w.freeChunks.toList →
      ∃ c, x.nvmChunk = 4194304 * c ∧ L (1024 * c) = some (.huge x.nChunks (.pool 0)) := by
    intro x hx
    obtain ⟨p, hp, hx⟩ := (h.pool.chunks.mem x).mp hx
    have hfits : p % 1024 = 0 := h.nvm.ok.fits hp
    refine ⟨p / 1024, by omega, ?_⟩
    rwa [show 1024 * (p / 1024) = p by omega]
  have hchunk : ∀ c, 4194304 * c / chunkSize = c := fun c => Nat.mul_div_cancel_left c (by decide)
  refine .of_map h.pool.chunks.nodup (fun x hx y hy heq => ?_) (fun x hx => ?_) ?_
  · obtain ⟨c, hx₁, hx₂⟩ := hnode hx
    obtain ⟨d, hy₁, hy₂⟩ := hnode hy
    simp only [hx₁, hy₁, hchunk] at heq
    subst heq
    rw [hx₂, Option.some.injEq, Tile.huge.injEq] at hy₂
    obtain ⟨addr, n⟩ := x
    obtain ⟨addr', n'⟩ := y
    simp only at hx₁ hy₁ hy₂
    rw [hx₁, hy₁, hy₂.1]
  · obtain ⟨c, hx₁, hx₂⟩ := hnode hx
    simp only [hx₁, hchunk, hx₂]
    exact ⟨⟨_, rfl⟩, rfl⟩
  · rintro c ⟨n, hc⟩
    have hmem : (⟨4194304 * c, n⟩ : Huge) ∈ s.w.freeChunks.toList :=
      (h.pool.chunks.mem _).mpr ⟨1024 * c, hc, by simp only; omega⟩
    exact ⟨_, hmem, hchunk c⟩

/-- The chunks of the heap are partitioned among arenas, client and pool. -/
theorem ProcInv.chunks_partition (h : ProcInv L s.w s.live) :
    IsPartition 0 s.w.nvm.nextChunk s.chunkRegions := by
  have h' := h.toHeapInv
  refine h'.nvm.aligned.chunkTiling.isPartition
    (h'.enumerates_arenas.append (h'.enumerates_huge.append h'.enumerates_freeChunks ?_) ?_)
    fun c hc => ?_
  · rintro c ⟨n, b, hc⟩ ⟨k, hc'⟩
    rw [hc] at hc'
    exact absurd hc' (by simp)
  · rintro c hc (⟨n, b, hc'⟩ | ⟨k, hc'⟩) <;>
      rw [hc] at hc' <;>
      exact absurd hc' (by simp)
  · rw [Option.isSome_map] at hc
    obtain ⟨t, ht⟩ := Option.isSome_iff_exists.mp hc
    have howned := h.owned ht
    rcases h'.nvm.aligned.chunk_tile ht with rfl | ⟨n, o, rfl⟩
    · exact Or.inl ht
    · rcases o with a | - | b
      · obtain rfl : a = 0 := howned
        exact Or.inr (Or.inr ⟨n, ht⟩)
      · exact absurd howned id
      · exact Or.inr (Or.inl ⟨n, b, ht⟩)

/-! ## Pages -/

/-- The lengths of the tiles behind the header page of chunk `c`. -/
def pageLen (L : Layout) (c p : ℕ) : Option ℕ :=
  if 1024 * c + 1 ≤ p ∧ p < 1024 * (c + 1) then (L p).map Tile.len else none

/-- Page `p` lies behind the header page of chunk `c`. -/
def InChunk (c p : ℕ) : Prop := 1024 * c + 1 ≤ p ∧ p < 1024 * (c + 1)

theorem pageLen_of_tile {c p : ℕ} {t : Tile} (hin : InChunk c p) (hp : L p = some t) :
    pageLen L c p = some t.len := by
  unfold pageLen
  rw [if_pos (show 1024 * c + 1 ≤ p ∧ p < 1024 * (c + 1) from hin), hp]
  rfl

/-- A page run lies behind the header page of its chunk. -/
theorem HeapInv.inChunk_block (h : HeapInv L s.w s.live) {p n : ℕ} {o : Owner}
    (hp : L p = some (.block n o)) : InChunk (p / 1024) p := by
  have hfits : (Tile.block n o).Fits p := h.nvm.ok.fits hp
  have hne := hfits.1
  constructor <;> omega

/-- The run pages. -/
theorem HeapInv.mem_runPages (h : HeapInv L s.w s.live) {c p : ℕ} (hc : L (1024 * c) = some .arena) :
    p ∈ runPages s.w.nvm.mem c ↔ InChunk c p ∧ ∃ k, L p = some (.run k) := by
  unfold runPages InChunk
  rw [List.mem_filter, (h.nvm.aligned.pageHeaders hc).2, decide_eq_true_eq, and_assoc]
  refine and_congr_right fun _ => ⟨?_, ?_⟩
  · rintro ⟨hsome, husage⟩
    obtain ⟨t, ht⟩ := Option.isSome_iff_exists.mp hsome
    have hkind := (h.nvm.quiet ht).hdrOk.usage fun k hk => (h.nvm.aligned.unstuck p k) (hk ▸ ht)
    obtain ⟨k, rfl⟩ := hkind.2.mp husage
    exact ⟨k, ht⟩
  · rintro ⟨k, hk⟩
    exact ⟨by rw [hk]; rfl, ((h.nvm.quiet hk).hdrOk.usage (by simp)).2.mpr ⟨k, rfl⟩⟩

theorem HeapInv.enumerates_runs (h : HeapInv L s.w s.live) {c : ℕ} (hc : L (1024 * c) = some .arena) :
    Enumerates (pageLen L c) ((runPages s.w.nvm.mem c).map fun p => (p, 1))
      fun p => InChunk c p ∧ ∃ k, L p = some (.run k) := by
  have hsorted := ((h.nvm.aligned.pageHeaders hc).1.imp fun hlt => Nat.ne_of_lt hlt).filter
    fun p => decide (usageAt s.w.nvm.mem p = usageRun)
  refine .of_map hsorted (fun _ _ _ _ heq => heq) (fun p hp => ?_)
    fun p hp => ⟨p, (h.mem_runPages hc).mpr hp, rfl⟩
  obtain ⟨hin, k, hk⟩ := (h.mem_runPages hc).mp hp
  exact ⟨⟨hin, k, hk⟩, pageLen_of_tile hin hk⟩

/-- Where an outstanding large region lies. -/
theorem HeapInv.large_tile (h : HeapInv L s.w s.live) {c : ℕ} {r : Region} (hr : r ∈ s.largeRegions c) :
    ∃ p, r.ptr = 4096 * p + 64 ∧ InChunk c p ∧ ∃ n b, L p = some (.block n (.user b)) := by
  obtain ⟨hr, hsize⟩ := List.mem_filter.mp hr
  rw [decide_eq_true_eq] at hsize
  obtain ⟨hlo, hhi, hchunk⟩ := hsize
  obtain ⟨t, ht, -⟩ := h.tile_of_region hr
  rcases (h.live.placed r hr).kind (h.live.size r hr).1 ht with ⟨hs, -⟩ | ⟨-, -, hmod, rfl⟩ | ⟨hs, -⟩
  · omega
  · have hin := h.inChunk_block ht
    simp only [chunkSize] at hchunk
    rw [show r.ptr / 4096 / 1024 = c by omega] at hin
    exact ⟨r.ptr / 4096, by omega, hin, _, _, ht⟩
  · omega

theorem HeapInv.enumerates_large (h : HeapInv L s.w s.live) (c : ℕ) :
    Enumerates (pageLen L c)
      ((s.largeRegions c).map fun r =>
        ((r.ptr - headerSize) / blockSize, field s.w.nvm.mem (r.ptr - headerSize) nPagesF))
      fun p => InChunk c p ∧ ∃ n b, L p = some (.block n (.user b)) := by
  have hbase : ∀ p, 4096 * p + 64 - headerSize = 4096 * p := fun p => Nat.add_sub_cancel ..
  have hpage : ∀ p, 4096 * p / blockSize = p := fun p => Nat.mul_div_cancel_left p (by decide)
  refine .of_map (h.live.nodup.of_map.filter _) (fun r hr r' hr' heq => ?_) (fun r hr => ?_) ?_
  · obtain ⟨p, hptr, -⟩ := h.large_tile hr
    obtain ⟨p', hptr', -⟩ := h.large_tile hr'
    refine h.live.eq_of_ptr (List.mem_filter.mp hr).1 (List.mem_filter.mp hr').1 ?_
    simp only [hptr, hptr', hbase, hpage] at heq
    rw [hptr, hptr', heq]
  · obtain ⟨p, hptr, hin, n, b, htile⟩ := h.large_tile hr
    have hn : field s.w.nvm.mem (4096 * p) nPagesF = n := (h.nvm.quiet htile).1
    simp only [hptr, hbase, hpage, hn]
    exact ⟨⟨hin, n, b, htile⟩, pageLen_of_tile hin htile⟩
  · rintro p ⟨hin, n, b, htile⟩
    obtain ⟨r, hr, hptr⟩ := h.live.block htile
    refine ⟨r, List.mem_filter.mpr ⟨hr, ?_⟩, by simp only [hptr, hbase, hpage]⟩
    rw [decide_eq_true_eq]
    rw [show p = r.ptr / 4096 by omega] at htile
    rcases (h.live.placed r hr).kind (h.live.size r hr).1 htile with ⟨-, k, hk⟩ | ⟨hlo, hhi, -⟩ |
      ⟨-, -, hk⟩
    · exact absurd hk (by simp)
    · have h1 := hin.1
      have h2 := hin.2
      simp only [chunkSize]
      exact ⟨hlo, hhi, by omega⟩
    · exact absurd hk (by simp)

/-- The node of a free page run in chunk `c`. -/
theorem HeapInv.freePages_tile (h : HeapInv L s.w s.live) {c : ℕ} {x : ArenaBlock}
    (hx : x ∈ s.freePages c) :
    ∃ p, x.nvmBlock = 4096 * p ∧ InChunk c p ∧ L p = some (.block x.nPages (.pool x.arena)) := by
  obtain ⟨a, -, hx⟩ := List.mem_flatMap.mp hx
  obtain ⟨hx, hchunk⟩ := List.mem_filter.mp hx
  obtain ⟨p, hp, haddr, rfl⟩ := ((h.pool.pages a).mem x).mp hx
  rw [decide_eq_true_eq] at hchunk
  simp only [chunkSize] at hchunk
  have hin := h.inChunk_block hp
  rw [show p / 1024 = c by omega] at hin
  exact ⟨p, haddr, hin, hp⟩

/-- No node is listed twice, in one tree or in two. -/
theorem HeapInv.nodup_freePages (h : HeapInv L s.w s.live) (c : ℕ) : (s.freePages c).Nodup := by
  unfold Sys.freePages
  rw [List.nodup_flatMap]
  refine ⟨fun a _ => (h.pool.pages a).nodup.filter _, List.nodup_range.imp fun {a b} hne => ?_⟩
  intro x hx hy
  obtain ⟨-, -, -, rfl⟩ := ((h.pool.pages a).mem x).mp (List.mem_filter.mp hx).1
  obtain ⟨-, -, -, hb⟩ := ((h.pool.pages b).mem x).mp (List.mem_filter.mp hy).1
  exact hne hb

theorem ProcInv.enumerates_freePages (h : ProcInv L s.w s.live) (c : ℕ) :
    Enumerates (pageLen L c) ((s.freePages c).map fun x => (x.nvmBlock / blockSize, x.nPages))
      fun p => InChunk c p ∧ ∃ n a, L p = some (.block n (.pool a)) := by
  have hpage : ∀ p, 4096 * p / blockSize = p := fun p => Nat.mul_div_cancel_left p (by decide)
  refine .of_map (h.nodup_freePages c) (fun x hx y hy heq => ?_) (fun x hx => ?_) ?_
  · obtain ⟨p, hx₁, -, hx₂⟩ := h.freePages_tile hx
    obtain ⟨q, hy₁, -, hy₂⟩ := h.freePages_tile hy
    simp only [hx₁, hy₁, hpage] at heq
    subst heq
    rw [hx₂, Option.some.injEq, Tile.block.injEq, Owner.pool.injEq] at hy₂
    obtain ⟨addr, n, a⟩ := x
    obtain ⟨addr', n', a'⟩ := y
    simp only at hx₁ hy₁ hy₂
    rw [hx₁, hy₁, hy₂.1, hy₂.2]
  · obtain ⟨p, hx₁, hin, hx₂⟩ := h.freePages_tile hx
    simp only [hx₁, hpage]
    exact ⟨⟨hin, _, _, hx₂⟩, pageLen_of_tile hin hx₂⟩
  · rintro p ⟨hin, n, a, hp⟩
    have ha : a < initialArenas := h.owned hp
    have hmem : (⟨4096 * p, n, a⟩ : ArenaBlock) ∈ (s.w.arenas a).freePageruns.toList :=
      ((h.pool.pages a).mem _).mpr ⟨p, hp, rfl, rfl⟩
    have h1 := hin.1
    have h2 := hin.2
    refine ⟨_, List.mem_flatMap.mpr ⟨a, List.mem_range.mpr ha, List.mem_filter.mpr ⟨hmem, ?_⟩⟩, hpage p⟩
    rw [decide_eq_true_eq]
    simp only [chunkSize]
    omega

/-- A tile behind the header page of a chunk is a run, a page run of the client or one of a pool. -/
theorem ProcInv.page_kind (h : ProcInv L s.w s.live) {c p : ℕ} {t : Tile} (hin : InChunk c p)
    (hp : L p = some t) : (InChunk c p ∧ ∃ k, L p = some (.run k)) ∨
      (InChunk c p ∧ ∃ n b, L p = some (.block n (.user b))) ∨
      (InChunk c p ∧ ∃ n a, L p = some (.block n (.pool a))) := by
  have howned := h.owned hp
  rcases h.toHeapInv.nvm.aligned.page_tile hp hin.1 hin.2 with ⟨k, rfl⟩ | ⟨n, o, rfl⟩
  · exact Or.inl ⟨hin, k, hp⟩
  · rcases o with a | - | b
    · exact Or.inr (Or.inr ⟨hin, n, a, hp⟩)
    · exact absurd howned id
    · exact Or.inr (Or.inl ⟨hin, n, b, hp⟩)

/-- A tile has one kind. -/
theorem page_kinds_disjoint {c p : ℕ} : (InChunk c p ∧ (∃ n b, L p = some (.block n (.user b))) →
      ¬ (InChunk c p ∧ ∃ n a, L p = some (.block n (.pool a)))) ∧
    (InChunk c p ∧ (∃ k, L p = some (.run k)) →
      ¬ ((InChunk c p ∧ ∃ n b, L p = some (.block n (.user b))) ∨
        (InChunk c p ∧ ∃ n a, L p = some (.block n (.pool a))))) := by
  constructor
  · rintro ⟨-, n, b, hp⟩ ⟨-, k, a, hp'⟩
    rw [hp] at hp'
    exact absurd hp' (by simp)
  · rintro ⟨-, k, hp⟩ (⟨-, n, b, hp'⟩ | ⟨-, n, a, hp'⟩) <;>
      rw [hp] at hp' <;>
      exact absurd hp' (by simp)

/-- The pages of an arena chunk are partitioned among runs, client and pools. -/
theorem ProcInv.pages_partition (h : ProcInv L s.w s.live) {c : ℕ} (hc : L (1024 * c) = some .arena) :
    IsPartition (1024 * c + 1) (1024 * (c + 1)) (s.pageRegions c) := by
  have h' := h.toHeapInv
  refine (h'.nvm.aligned.pageTiling hc).isPartition
    ((h'.enumerates_runs hc).append ((h'.enumerates_large c).append (h.enumerates_freePages c)
      fun _ => page_kinds_disjoint.1) fun _ => page_kinds_disjoint.2) fun p hp => ?_
  split at hp
  · rename_i hin
    rw [Option.isSome_map] at hp
    obtain ⟨t, ht⟩ := Option.isSome_iff_exists.mp hp
    exact h.page_kind hin ht
  · exact absurd hp (by simp)

/-! ## Slots -/

/-- An outstanding small region is a slot of a run. -/
theorem HeapInv.small_slot (h : HeapInv L s.w s.live) {r : Region} (hr : r ∈ s.live)
    (hsize : r.nBytes ≤ sclassSmallMax) :
    ∃ c ∈ arenaChunks s.w.nvm, ∃ p ∈ runPages s.w.nvm.mem c, ∃ i, IsSlot s.w.nvm.mem r p i := by
  have hsizes : sclassSmallMax ≤ sclassLargeMax := by decide
  cases h.live.placed r hr with
  | @small _ p k i htile helem hi hptr =>
    have hfits : p % 1024 ≠ 0 := h.nvm.ok.fits htile
    have harena := h.nvm.aligned.arena_of_page htile hfits
    have hin : InChunk (p / 1024) p := by constructor <;> omega
    have hbytes : field s.w.nvm.mem (4096 * p) nBytesF = roundUp r.nBytes 64 := by
      rw [← helem, (h.runs.run htile).2.elemSize]
    refine ⟨p / 1024, (h.nvm.aligned.arenaChunks.2 _).mpr harena, p,
      (h.mem_runPages harena).mpr ⟨hin, k, htile⟩, i, hbytes, helem ▸ hi, ?_, ?_⟩
    · rw [hptr, helem]
      rfl
    · have hend := slot_end_le hi
      rw [helem] at hend hptr
      omega
  | large hlo => omega
  | huge hlo => omega

end

/-- **In-run space partition.** In every state between two calls the chunks are partitioned into arena
chunks, outstanding huge regions and free chunks, the pages of every arena chunk into runs, outstanding
page runs and free page runs, the outstanding small regions are distinct slots of runs, and no two
outstanding regions overlap. -/
theorem space_partition {P : Process} {s : Sys} (hs : Reachable P s) : SpacePartition s := by
  obtain ⟨L, hproc, -⟩ := sysInv_of_reachable hs
  have hheap := hproc.toHeapInv
  refine ⟨hproc.chunks_partition, fun c hc => ?_, fun r hr hsize => hheap.small_slot hr hsize,
    hheap.live.nodup, ?_⟩
  · exact hproc.pages_partition ((hheap.nvm.aligned.arenaChunks.2 c).mp hc)
  · refine List.Pairwise.imp_of_mem ?_ hheap.live.nodup.of_map
    intro r r' hr hr' hne
    exact hheap.live.disjoint hheap.nvm.ok hr hr' hne

/-- The calls of the following history: a region of each size class, and one given back. -/
def mixedCalls : List Op := [.reserve 0 100, .reserve 0 5000, .reserve 0 3000000,
  .activate 4182080 none none, .free 4182080 none none]

/-- A small and a huge region share the space with what was given back. -/
theorem space_partition_after_mixedCalls :
    ∃ s, sampleHistory mixedCalls = some s ∧ SpacePartition s := by
  have hsome : (sampleHistory mixedCalls).isSome = true := by decide +kernel
  obtain ⟨s, hs⟩ := Option.isSome_iff_exists.mp hsome
  exact ⟨s, hs, space_partition (Process.reachable_history hs)⟩

end NvmMalloc
