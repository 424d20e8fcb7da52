import NvmMalloc.Partition

/-!
# What the page walk reads

Reference: `src/nvm_malloc.c` (`nvm_recovery_thread`), `src/arena.c` (`arena_create_run`,
`arena_create_block`, `arena_add_chunk`).

The recovery thread trusts `n_chunks` and `n_pages` as jump widths.  Between any two calls its walks end
exactly at the end of the heap and of each arena chunk, and what they read on the way is what the
allocator and its client know: the runs, the outstanding page runs, and the nodes of the trees.
-/

namespace NvmMalloc

open Memory

/-- What the page walk reads off one header. -/
structure HeaderRead where
  page : ℕ
  usage : ℕ
  nPages : ℕ
deriving DecidableEq, Repr

/-- The header on page `p` as the page walk reads it. -/
def readHeader (m : Mem) (p : ℕ) : HeaderRead := ⟨p, usageAt m p, pageStep m p⟩

/-- The runs of the process in chunk `c`. -/
def Sys.runTiles (s : Sys) (c : ℕ) : List HeaderRead :=
  ((List.range s.w.nVheaders).filter fun k => (s.w.vheaders k).nvmRun / chunkSize = c).map fun k =>
    ⟨(s.w.vheaders k).nvmRun / blockSize, usageRun, 1⟩

/-- The outstanding large regions in chunk `c`: BLOCK if activated, still FREE if only reserved, with the
pages of the request. -/
def Sys.largeTiles (s : Sys) (c : ℕ) : List HeaderRead :=
  (s.largeRegions c).map fun r =>
    ⟨(r.ptr - headerSize) / blockSize, if r.active then usageBlock else usageFree,
      roundUp r.nBytes blockSize / blockSize⟩

/-- The nodes of the trees of free page runs in chunk `c`. -/
def Sys.freeTiles (s : Sys) (c : ℕ) : List HeaderRead :=
  (s.freePages c).map fun x => ⟨x.nvmBlock / blockSize, usageFree, x.nPages⟩

/-- What the walk over chunk `c` should read. -/
def Sys.pageTiles (s : Sys) (c : ℕ) : List HeaderRead :=
  s.runTiles c ++ (s.largeTiles c ++ s.freeTiles c)

/-- The headers on NVM decode to the layout of the allocator. -/
structure HeadersDecode (s : Sys) : Prop where
  chunkEnd : walkEnd (chunkStep s.w.nvm.mem) s.w.nvm.nextChunk s.w.nvm.nextChunk 0 = s.w.nvm.nextChunk
  pageEnd : ∀ c ∈ arenaChunks s.w.nvm,
    walkEnd (pageStep s.w.nvm.mem) (1024 * (c + 1)) 1024 (1024 * c + 1) = 1024 * (c + 1)
  tiles : ∀ c ∈ arenaChunks s.w.nvm,
    ((pageHeaders s.w.nvm.mem c).map (readHeader s.w.nvm.mem)).Perm (s.pageTiles c)

section

variable {L : Layout} {s : Sys} {m : Mem} {n c : ℕ}

/-! ## The ends of the walks -/

theorem Aligned.chunkEnd {nvm : Nvm} (h : Aligned L nvm.mem nvm.nextChunk) :
    walkEnd (chunkStep nvm.mem) nvm.nextChunk nvm.nextChunk 0 = nvm.nextChunk := by
  refine h.chunkTiling.walkEnd_eq (fun hc => ?_) h.chunkTiling.first (Nat.zero_le _) (by omega)
  obtain ⟨t, ht, rfl⟩ := Option.map_eq_some_iff.mp hc
  exact h.chunkStep_eq ht

theorem Aligned.pageEnd (h : Aligned L m n) (hc : L (1024 * c) = some .arena) :
    walkEnd (pageStep m) (1024 * (c + 1)) 1024 (1024 * c + 1) = 1024 * (c + 1) := by
  refine (h.pageTiling hc).walkEnd_eq (fun hp => ?_) (h.pageTiling hc).first (by omega) (by omega)
  split at hp
  · rename_i hin
    obtain ⟨t, ht, rfl⟩ := Option.map_eq_some_iff.mp hp
    exact h.pageStep_eq ht hin.1 hin.2
  · exact absurd hp (by simp)

/-! ## The tiles -/

/-- A page run as the walk reads it. -/
theorem HeapInv.readHeader_block (h : HeapInv L s.w s.live) {p n : ℕ} {o : Owner}
    (hp : L p = some (.block n o)) :
    readHeader s.w.nvm.mem p = ⟨p, getUsage (blockState o), n⟩ := by
  have hin := h.inChunk_block hp
  obtain ⟨-, -, hst, -⟩ := h.nvm.quiet hp
  unfold readHeader usageAt
  rw [h.nvm.aligned.pageStep_eq hp hin.1 hin.2, hst]
  rfl

/-- A run as the walk reads it. -/
theorem HeapInv.readHeader_run (h : HeapInv L s.w s.live) {p k : ℕ} (hp : L p = some (.run k)) :
    readHeader s.w.nvm.mem p = ⟨p, usageRun, 1⟩ := by
  have hfits : p % 1024 ≠ 0 := h.nvm.ok.fits hp
  unfold readHeader
  rw [h.nvm.aligned.pageStep_eq (c := p / 1024) hp (by omega) (by omega),
    ((h.nvm.quiet hp).hdrOk.usage (by simp)).2.mpr ⟨k, rfl⟩]
  rfl

/-- The reads `ts` are those of the tiles of chunk `c` that start in `K`, each once. -/
structure Reads (L : Layout) (m : Mem) (c : ℕ) (ts : List HeaderRead) (K : ℕ → Prop) : Prop where
  enumerates : Enumerates (pageLen L c) (ts.map fun t => (t.page, t.nPages)) K
  read : ∀ t ∈ ts, readHeader m t.page = t

/-- Two lists for two disjoint kinds of tiles. -/
theorem Reads.append {ts ts' : List HeaderRead} {K K' : ℕ → Prop} (h : Reads L m c ts K)
    (h' : Reads L m c ts' K') (hdisj : ∀ p, K p → ¬ K' p) :
    Reads L m c (ts ++ ts') fun p => K p ∨ K' p := by
  refine ⟨?_, fun t ht => (List.mem_append.mp ht).elim (h.read t) (h'.read t)⟩
  rw [List.map_append]
  exact h.enumerates.append h'.enumerates hdisj

/-- A walk that meets exactly the tiles of the list reads the list. -/
theorem Reads.perm {ts : List HeaderRead} {ps : List ℕ} {K : ℕ → Prop} (h : Reads L m c ts K)
    (hps : ps.Pairwise (· < ·)) (hmem : ∀ p, p ∈ ps ↔ K p) : (ps.map (readHeader m)).Perm ts := by
  have hpages : (ts.map fun t => (t.page, t.nPages)).map Prod.fst = ts.map HeaderRead.page := by
    rw [List.map_map]
    rfl
  have hnodup := h.enumerates.nodup
  rw [hpages] at hnodup
  have hperm : ps.Perm (ts.map HeaderRead.page) := by
    refine (List.perm_ext_iff_of_nodup (hps.imp fun hlt => Nat.ne_of_lt hlt) hnodup).mpr fun p => ?_
    rw [hmem]
    constructor
    · intro hp
      have hin := h.enumerates.all hp
      rwa [hpages] at hin
    · intro hp
      obtain ⟨t, ht, rfl⟩ := List.mem_map.mp hp
      exact (h.enumerates.tile (List.mem_map_of_mem ht)).1
  have hts : (ts.map HeaderRead.page).map (readHeader m) = ts := by
    rw [List.map_map]
    exact (List.map_congr_left h.read).trans (List.map_id ts)
  rw [← hts]
  exact hperm.map _

/-- The runs. -/
theorem HeapInv.reads_runs (h : HeapInv L s.w s.live) (c : ℕ) :
    Reads L s.w.nvm.mem c (s.runTiles c) fun p => InChunk c p ∧ ∃ k, L p = some (.run k) := by
  -- a VHeader with its page
  have hnode : ∀ {k}, k ∈ (List.range s.w.nVheaders).filter (fun k =>
      (s.w.vheaders k).nvmRun / chunkSize = c) →
      ∃ p, (s.w.vheaders k).nvmRun / blockSize = p ∧ InChunk c p ∧ L p = some (.run k) := by
    intro k hk
    obtain ⟨hk, hchunk⟩ := List.mem_filter.mp hk
    obtain ⟨p, hp⟩ := h.runs.tile k (List.mem_range.mp hk)
    have hrun := (h.runs.run hp).2.nvmRun
    have hfits : p % 1024 ≠ 0 := h.nvm.ok.fits hp
    rw [decide_eq_true_eq, hrun] at hchunk
    simp only [chunkSize] at hchunk
    refine ⟨p, by rw [hrun]; exact Nat.mul_div_cancel_left p (by decide), ?_, hp⟩
    constructor <;> omega
  refine ⟨?_, fun t ht => ?_⟩
  · unfold Sys.runTiles
    rw [List.map_map]
    refine .of_map (List.nodup_range.filter _) (fun k hk k' hk' heq => ?_) (fun k hk => ?_) ?_
    · obtain ⟨p, hp, -, htile⟩ := hnode hk
      obtain ⟨p', hp', -, htile'⟩ := hnode hk'
      have hpp : p = p' := hp.symm.trans (heq.trans hp')
      rw [hpp, htile'] at htile
      exact (Tile.run.inj (Option.some.inj htile)).symm
    · obtain ⟨p, hp, hin, htile⟩ := hnode hk
      simp only [Function.comp_apply, hp]
      exact ⟨⟨hin, k, htile⟩, pageLen_of_tile hin htile⟩
    · rintro p ⟨hin, k, hp⟩
      obtain ⟨hk, hrun⟩ := h.runs.run hp
      obtain ⟨hlo, hhi⟩ := hin
      refine ⟨k, List.mem_filter.mpr ⟨List.mem_range.mpr hk, ?_⟩, ?_⟩
      · rw [decide_eq_true_eq, hrun.nvmRun]
        simp only [chunkSize]
        omega
      · show (s.w.vheaders k).nvmRun / blockSize = p
        rw [hrun.nvmRun]
        exact Nat.mul_div_cancel_left p (by decide)
  · obtain ⟨k, hk, rfl⟩ := List.mem_map.mp ht
    obtain ⟨p, hp, -, htile⟩ := hnode hk
    simp only [hp]
    exact h.readHeader_run htile

/-- The pages of an outstanding large region are those of the request. -/
theorem HeapInv.large_pages (h : HeapInv L s.w s.live) {c : ℕ} {r : Region} (hr : r ∈ s.largeRegions c) :
    ∃ p, r.ptr = 4096 * p + 64 ∧
      L p = some (.block (roundUp r.nBytes blockSize / blockSize) (.user r.active)) := by
  obtain ⟨p, hptr, -, n, b, hp⟩ := h.large_tile hr
  have hlive := (List.mem_filter.mp hr).1
  have hpage : r.ptr / 4096 = p := by omega
  rcases (h.live.placed r hlive).kind (h.live.size r hlive).1 (hpage ▸ hp) with
    ⟨-, k, hk⟩ | ⟨-, -, -, hk⟩ | ⟨-, -, hk⟩
  · exact absurd hk (by simp)
  · exact ⟨p, hptr, hk ▸ hp⟩
  · exact absurd hk (by simp)

/-- The outstanding large regions. -/
theorem HeapInv.reads_large (h : HeapInv L s.w s.live) (c : ℕ) : Reads L s.w.nvm.mem c (s.largeTiles c)
    fun p => InChunk c p ∧ ∃ n b, L p = some (.block n (.user b)) := by
  have hbase : ∀ p, 4096 * p + 64 - headerSize = 4096 * p := fun p => Nat.add_sub_cancel ..
  have hpage : ∀ p, 4096 * p / blockSize = p := fun p => Nat.mul_div_cancel_left p (by decide)
  refine ⟨?_, fun t ht => ?_⟩
  · unfold Sys.largeTiles
    rw [List.map_map]
    refine (congrArg (Enumerates (pageLen L c) · _) (List.map_congr_left fun r hr => ?_)).mp
      (h.enumerates_large c)
    obtain ⟨p, hptr, hp⟩ := h.large_pages hr
    simp only [Function.comp_apply, hptr, hbase]
    rw [(h.nvm.quiet hp).1]
  · obtain ⟨r, hr, rfl⟩ := List.mem_map.mp ht
    obtain ⟨p, hptr, hp⟩ := h.large_pages hr
    simp only [hptr, hbase, hpage]
    rw [h.readHeader_block hp]
    cases r.active <;> rfl

/-- The nodes of the trees. -/
theorem ProcInv.reads_free (h : ProcInv L s.w s.live) (c : ℕ) : Reads L s.w.nvm.mem c (s.freeTiles c)
    fun p => InChunk c p ∧ ∃ n a, L p = some (.block n (.pool a)) := by
  refine ⟨?_, fun t ht => ?_⟩
  · unfold Sys.freeTiles
    rw [List.map_map]
    exact h.enumerates_freePages c
  · obtain ⟨x, hx, rfl⟩ := List.mem_map.mp ht
    obtain ⟨p, hx₁, -, hp⟩ := h.freePages_tile hx
    simp only [hx₁, show 4096 * p / blockSize = p from Nat.mul_div_cancel_left p (by decide)]
    rw [h.readHeader_block hp]
    have husage : getUsage (blockState (.pool x.arena)) = usageFree := by
      show getUsage (usageFree + stateInitialized) = usageFree
      decide
    rw [husage]

/-- Between two calls the page walk reads the layout of the allocator. -/
theorem ProcInv.perm_pageTiles (h : ProcInv L s.w s.live) (hc : L (1024 * c) = some .arena) :
    ((pageHeaders s.w.nvm.mem c).map (readHeader s.w.nvm.mem)).Perm (s.pageTiles c) := by
  have h' := h.toHeapInv
  have hreads := (h'.reads_runs c).append ((h'.reads_large c).append (h.reads_free c)
    fun _ => page_kinds_disjoint.1) fun _ => page_kinds_disjoint.2
  obtain ⟨hsorted, hmem⟩ := h'.nvm.aligned.pageHeaders hc
  refine hreads.perm hsorted fun p => ?_
  rw [hmem]
  constructor
  · rintro ⟨hin, hsome⟩
    obtain ⟨t, ht⟩ := Option.isSome_iff_exists.mp hsome
    exact h.page_kind hin ht
  · rintro (⟨hin, k, hp⟩ | ⟨hin, n, b, hp⟩ | ⟨hin, n, a, hp⟩) <;>
      exact ⟨hin, Option.isSome_iff_exists.mpr ⟨_, hp⟩⟩

end

/-- **The headers on NVM decode to the layout of the allocator** in every state between two calls. -/
theorem headers_decode {P : Process} {s : Sys} (hs : Reachable P s) : HeadersDecode s := by
  obtain ⟨L, hproc, -⟩ := sysInv_of_reachable hs
  have haligned := hproc.toHeapInv.nvm.aligned
  refine ⟨haligned.chunkEnd, fun c hc => ?_, fun c hc => ?_⟩
  · exact haligned.pageEnd ((haligned.arenaChunks.2 c).mp hc)
  · exact hproc.perm_pageTiles ((haligned.arenaChunks.2 c).mp hc)

/-- The calls have left a run, free blocks and a huge region. -/
theorem headers_decode_after_mixedCalls :
    ∃ s, sampleHistory mixedCalls = some s ∧ HeadersDecode s := by
  have hsome : (sampleHistory mixedCalls).isSome = true := by decide +kernel
  obtain ⟨s, hs⟩ := Option.isSome_iff_exists.mp hsome
  exact ⟨s, hs, headers_decode (Process.reachable_history hs)⟩

end NvmMalloc
