import NvmMalloc.Partition

/-!
# Capacity and safety of allocations

Reference: `src/arena.c` (`arena_allocate`, `arena_create_run`, `arena_create_block`), `src/types.h`
(`SCLASS_*`), `src/nvm_malloc.c` (`nvm_reserve`, `nvm_reserve_huge`).

A small request is served from a slot of its rounded size.  A large request is rounded up to whole pages
before the 64-byte header is taken off, so that a request that ends less than 64 bytes below a page
boundary, or on one, gets less than it asked for.  A huge request gets whole chunks, counted in 64-bit
arithmetic and then cut to 32 bits: it gets what it asked for exactly when the count fits.

The only request of at most SCLASS_LARGE_MAX bytes that faults is the empty one.  All this is about the
process that has initialized the heap.
-/

namespace NvmMalloc

open Memory CrashM

/-- The bytes `[a, a + n)` and `[b, b + k)` have no byte in common. -/
def Apart (a n b k : ℕ) : Prop := a + n ≤ b ∨ b + k ≤ a

instance (a n b k : ℕ) : Decidable (Apart a n b k) := inferInstanceAs (Decidable (_ ∨ _))

/-- The bytes `[ptr, ptr + nBytes)` lie inside the slot or the page run that `ptr` was granted. -/
def InsideGrant (m : Mem) (ptr nBytes : ℕ) : Prop :=
  if nBytes ≤ sclassSmallMax then
    let elemSize := field m (ptr / blockSize * blockSize) nBytesF
    ∃ i < slotsPerRun elemSize, ptr = ptr / blockSize * blockSize + headerSize + elemSize * i ∧
      nBytes ≤ elemSize
  else
    ptr + nBytes ≤ ptr - headerSize + field m (ptr - headerSize) nPagesF * blockSize

/-- The bytes `[ptr, ptr + nBytes)` are usable: they lie inside the grant and hold no byte of a header or
of a region of the ledger, which is that before the call. -/
structure HasCapacity (s : Sys) (ptr nBytes : ℕ) : Prop where
  inside : InsideGrant s.w.nvm.mem ptr nBytes
  chunkHeader : ∀ c ∈ arenaChunks s.w.nvm, Apart ptr nBytes (4194304 * c) 4096
  hugeHeader : ∀ c ∈ chunkHeaders s.w.nvm, Apart ptr nBytes (4194304 * c) headerSize
  pageHeader : ∀ c ∈ arenaChunks s.w.nvm, ∀ p ∈ pageHeaders s.w.nvm.mem c,
    Apart ptr nBytes (4096 * p) headerSize
  others : ∀ r ∈ s.live, Apart ptr nBytes r.ptr (grantedLen r.nBytes)

/-- A request that leaves room for the header in its last page. -/
def Roomy (nBytes : ℕ) : Prop :=
  nBytes ≤ sclassSmallMax ∨ nBytes + headerSize ≤ roundUp nBytes blockSize

section

variable {L : Layout} {s : Sys} {r : Region}

/-- The grant of a new region holds the request exactly when the request is roomy. -/
theorem HeapInv.insideGrant_iff (h : HeapInv L s.w (r :: s.live))
    (hlarge : r.nBytes ≤ sclassLargeMax) :
    InsideGrant s.w.nvm.mem r.ptr r.nBytes ↔ Roomy r.nBytes := by
  have hr : r ∈ r :: s.live := List.mem_cons_self
  unfold InsideGrant Roomy
  cases h.live.placed r hr with
  | @small hs p k i htile helem hi hptr =>
    have hbytes : field s.w.nvm.mem (4096 * p) nBytesF = roundUp r.nBytes 64 := by
      rw [← helem, (h.runs.run htile).2.elemSize]
    have hpage : r.ptr / blockSize * blockSize = 4096 * p := by
      rw [show r.ptr / blockSize = p by
        rw [hptr]
        exact slot_page (le_elemSize (h.live.size r hr).1 helem) hi]
      exact Nat.mul_comm ..
    simp only [if_pos hs, hpage, hbytes]
    refine ⟨fun _ => Or.inl hs, fun _ => ⟨i, helem ▸ hi, ?_, ?_⟩⟩
    · rw [hptr, helem]
      rfl
    · rw [roundUp_64]
      omega
  | @large hlo hhi p htile hptr =>
    have hpages : field s.w.nvm.mem (4096 * p) nPagesF = roundUp r.nBytes blockSize / blockSize :=
      (h.nvm.quiet htile).1
    have hbase : r.ptr - headerSize = 4096 * p := by rw [hptr]; exact Nat.add_sub_cancel ..
    have hmul : roundUp r.nBytes blockSize / blockSize * blockSize = roundUp r.nBytes blockSize := by
      rw [roundUp_blockSize]
      simp only [blockSize]
      omega
    rw [if_neg (by omega), hbase, hpages, hmul, hptr]
    constructor
    · intro hle
      refine Or.inr ?_
      simp only [headerSize]
      omega
    · rintro (hs | hle)
      · omega
      · simp only [headerSize] at hle
        omega
  | huge hlo => omega

/-- A roomy request stays inside what the ledger grants it. -/
theorem Roomy.le_grantedLen {n : ℕ} (h : Roomy n) (hlarge : n ≤ sclassLargeMax) : n ≤ grantedLen n := by
  unfold grantedLen
  rcases h with hs | hle
  · rw [if_pos hs, roundUp_64]
    omega
  · split
    · rw [roundUp_64]
      omega
    · simp only [headerSize] at hle ⊢
      omega

/-- The span of a new region that is roomy misses headers and the other regions. -/
theorem HeapInv.hasCapacity (h : HeapInv L s.w (r :: s.live))
    (hlarge : r.nBytes ≤ sclassLargeMax) (hroomy : Roomy r.nBytes) : HasCapacity s r.ptr r.nBytes := by
  have hr : r ∈ r :: s.live := List.mem_cons_self
  have hle := hroomy.le_grantedLen hlarge
  have hbody : L.Body r.ptr r.nBytes := h.live.body ⟨r, hr, le_rfl, by omega⟩
  have haligned := h.nvm.aligned
  refine ⟨(h.insideGrant_iff hlarge).mpr hroomy, fun c hc => ?_, fun c hc => ?_,
    fun c hc p hp => ?_, fun r' hr' => ?_⟩
  · have hd := hbody.disjoint_arena h.nvm.ok ((haligned.arenaChunks.2 c).mp hc)
    unfold Apart
    omega
  · obtain ⟨t, ht⟩ := Option.isSome_iff_exists.mp ((haligned.chunkHeaders.2 c).mp hc)
    have hd := hbody.disjoint_header h.nvm.ok ht
    simp only [Apart, headerSize]
    omega
  · have harena := (haligned.arenaChunks.2 c).mp hc
    obtain ⟨t, ht⟩ := Option.isSome_iff_exists.mp (((haligned.pageHeaders harena).2 p).mp hp).2
    have hd := hbody.disjoint_header h.nvm.ok ht
    simp only [Apart, headerSize]
    omega
  · have hnew : r ∉ s.live := (List.nodup_cons.mp (List.Nodup.of_map _ h.live.nodup)).1
    have hd := h.live.disjoint h.nvm.ok hr (List.mem_cons_of_mem _ hr') fun heq => hnew (heq ▸ hr')
    unfold Apart
    omega

end

/-- **Capacity of arena allocations.** In every reachable state the pointer that `arena_allocate` returns
for a request of at most SCLASS_LARGE_MAX bytes has that many usable bytes, none of which belongs to a
region that was outstanding, exactly when the request is small or leaves room for the header in its last
page. -/
theorem arena_allocate_capacity_iff {P : Process} {s : Sys} {a nBytes ptr : ℕ} {w' : World}
    (hs : Reachable P s) (ha : a < initialArenas) (hn : 1 ≤ nBytes) (hlarge : nBytes ≤ sclassLargeMax)
    (hrun : (arenaAllocate a nBytes s.w).2 = .ok (some ptr, w')) :
    HasCapacity ⟨w', s.live⟩ ptr nBytes ↔
      nBytes ≤ sclassSmallMax ∨ nBytes + headerSize ≤ roundUp nBytes blockSize := by
  obtain ⟨L, hproc, -⟩ := sysInv_of_reachable hs
  have hspec := arenaAllocate_spec (B := .any) hproc ha hn hlarge (fun _ => trivial)
    fun _ _ => Blame.any_converts
  obtain ⟨L', ptr', hptr, hproc', -⟩ := hspec.result hrun
  cases hptr
  have hheap : HeapInv L' (⟨w', s.live⟩ : Sys).w (⟨ptr, nBytes, false⟩ :: s.live) := hproc'.toHeapInv
  constructor
  · intro hcap
    exact (hheap.insideGrant_iff hlarge).mp hcap.inside
  · intro hroomy
    exact hheap.hasCapacity hlarge hroomy

/-- A call that returns a pointer. -/
def returnsPtr (s : Sys) (a nBytes : ℕ) : Bool :=
  match (arenaAllocate a nBytes s.w).2 with
  | .ok (some _, _) => true
  | _ => false

theorem exists_of_returnsPtr {s : Sys} {a nBytes : ℕ} (h : returnsPtr s a nBytes = true) :
    ∃ ptr w', (arenaAllocate a nBytes s.w).2 = .ok (some ptr, w') := by
  unfold returnsPtr at h
  split at h
  · rename_i ptr w' hrun
    exact ⟨ptr, w', hrun⟩
  · exact absurd h (by simp)

/-- Beside an outstanding region, a request of two pages less 3192 bytes has its bytes. -/
theorem arena_allocate_capacity_5000 : ∃ s ptr w', Reachable sampleProcess s ∧ s.live.length = 1 ∧
    (arenaAllocate 0 5000 s.w).2 = .ok (some ptr, w') ∧ HasCapacity ⟨w', s.live⟩ ptr 5000 := by
  have hany : ((sampleHistory [.reserve 0 100]).any fun s =>
      decide (s.live.length = 1) && returnsPtr s 0 5000) = true := by
    decide +kernel
  obtain ⟨s, hs, htest⟩ := Process.exists_reachable hany
  obtain ⟨hlive, hret⟩ := Bool.and_eq_true_iff.mp htest
  obtain ⟨ptr, w', hrun⟩ := exists_of_returnsPtr hret
  exact ⟨s, ptr, w', hs, of_decide_eq_true hlive, hrun,
    (arena_allocate_capacity_iff hs (by decide) (by decide) (by decide) hrun).mpr (by decide)⟩

/-- In a fresh heap a request of one page gets 4032 bytes. -/
theorem arena_allocate_short_4096 : ∃ s ptr w', Reachable sampleProcess s ∧
    (arenaAllocate 0 4096 s.w).2 = .ok (some ptr, w') ∧
    ¬ HasCapacity ⟨w', s.live⟩ ptr 4096 := by
  have hany : ((sampleHistory []).any fun s =>
      match (arenaAllocate 0 4096 s.w).2 with
      | .ok (some ptr, w') =>
        decide (ptr - headerSize + field w'.nvm.mem (ptr - headerSize) nPagesF * blockSize < ptr + 4096)
      | _ => false) = true := by
    decide +kernel
  obtain ⟨s, hs, hret⟩ := Process.exists_reachable hany
  split at hret
  · rename_i ptr w' hrun
    refine ⟨s, ptr, w', hs, hrun, fun hcap => ?_⟩
    have hinside := hcap.inside
    rw [InsideGrant, if_neg (by decide)] at hinside
    exact absurd hinside (Nat.not_le.mpr (of_decide_eq_true hret))
  · exact absurd hret (by simp)

/-! ## Faults -/

/-- The index of the bin that `arena_allocate` computes for a small request: `n_bytes / 64 - 1`, in 32
bits. -/
def binIndex (nBytes : ℕ) : ℕ := (roundUp nBytes 64 / 64 + (2 ^ 32 - 1)) % 2 ^ 32

/-- `nvm_reserve` on a request of at most SCLASS_LARGE_MAX bytes makes no fault: it ends early only in
`error_and_exit`, not in a failed assertion or an undefined access; a small request has one of the 31
bins and a slot size that is not zero. -/
structure AllocatesSafely (w : World) (a nBytes : ℕ) : Prop where
  stops : ∀ e, (nvmReserve a nBytes w).2 = .error e → e = .exit
  bin : nBytes ≤ sclassSmallMax → binIndex nBytes ≤ 30
  divisor : nBytes ≤ sclassSmallMax → roundUp nBytes 64 ≠ 0

/-- **The allocation path is free of faults exactly for requests of at least one byte**, in every
reachable state. -/
theorem allocates_safely_iff {P : Process} {s : Sys} {a nBytes : ℕ} (hs : Reachable P s)
    (ha : a < initialArenas) (hlarge : nBytes ≤ sclassLargeMax) :
    AllocatesSafely s.w a nBytes ↔ 1 ≤ nBytes := by
  constructor
  · intro hsafe
    by_contra hzero
    obtain rfl : nBytes = 0 := by omega
    exact hsafe.divisor (by decide) (by decide)
  · intro hn
    obtain ⟨L, hproc, -⟩ := sysInv_of_reachable hs
    have hspec := nvmReserve_spec (B := .any) hproc ha hn (hlarge.trans (by decide))
      (fun _ => trivial) fun _ _ => Blame.any_converts
    refine ⟨fun e he => hspec.stop he, fun hsmall => ?_, fun hsmall => ?_⟩
    · obtain ⟨b, hb, hround⟩ := roundUp_small hn hsmall
      unfold binIndex
      rw [hround]
      omega
    · obtain ⟨b, hb, hround⟩ := roundUp_small hn hsmall
      omega

/-- In a fresh heap a request of one byte is served safely. -/
theorem allocates_safely_one : ∃ s, Reachable sampleProcess s ∧ AllocatesSafely s.w 0 1 := by
  have hany : ((sampleHistory []).any fun _ => true) = true := by decide +kernel
  obtain ⟨s, hs, -⟩ := Process.exists_reachable hany
  exact ⟨s, hs, (allocates_safely_iff hs (by decide) (by decide)).mpr le_rfl⟩

/-- In a fresh heap an empty request uses bin 4294967295. -/
theorem empty_request_faults : ∃ s, Reachable sampleProcess s ∧
    (nvmReserve 0 0 s.w).2 matches .error .fault ∧ binIndex 0 = 4294967295 ∧
    ¬ AllocatesSafely s.w 0 0 := by
  have hany : ((sampleHistory []).any fun s =>
      (nvmReserve 0 0 s.w).2 matches .error .fault) = true := by decide +kernel
  obtain ⟨s, hs, hfault⟩ := Process.exists_reachable hany
  exact ⟨s, hs, hfault, by decide, fun hsafe => hsafe.divisor (by decide) (by decide)⟩

/-! ## Huge requests -/

/-- The huge region at `ptr` holds `nBytes` bytes after its header, and the chunks its header counts are
its own: the chunks of the heap are partitioned among the arenas, the outstanding huge regions and
`free_chunks`, and this region is one of the parts. -/
structure HasHugeCapacity (s : Sys) (ptr nBytes : ℕ) : Prop where
  inside : nBytes ≤ field s.w.nvm.mem (ptr - headerSize) nChunksF * chunkSize - headerSize
  partition : IsPartition 0 s.w.nvm.nextChunk s.chunkRegions
  owned : ((ptr - headerSize) / chunkSize, field s.w.nvm.mem (ptr - headerSize) nChunksF) ∈
    s.chunkRegions

section

variable {L : Layout} {w : World} {live : List Region}

/-- A node of `free_chunks` is no larger than the heap. -/
theorem HeapInv.nChunks_le (h : HeapInv L w live) {x : Huge} (hx : x ∈ w.freeChunks.toList) :
    x.nChunks ≤ maxNvmChunks := by
  obtain ⟨p, hp, -⟩ := (h.pool.chunks.mem x).mp hx
  have hend := h.nvm.ok.add_len_le hp
  have hmax := h.nvm.le
  rw [Tile.len_huge] at hend
  omega

/-- Whatever count the huge branch of `nvm_reserve` is given, the header of the region it returns counts
at most the chunks of a full heap. -/
theorem nvmReserveChunks_count (h : HeapInv L w live) (k : ℕ) :
    Spec (nvmReserveChunks k) (fun _ => True)
      (fun x w' => field w'.nvm.mem x nChunksF ≤ maxNvmChunks) (fun e => e = .exit) w := by
  unfold nvmReserveChunks
  rw [spec_bind, spec_get]
  cases hub : chunkUpperBound (k % 2 ^ 32) w.freeChunks with
  | none =>
    unfold nvmReserveHuge
    refine (activateMoreChunks_spec fun _ => trivial).bind ?_
    rintro c w' ⟨-, -, hle⟩
    simp only [spec_bind, spec_storeField, spec_memset0, spec_persist, spec_pure, implies_true,
      true_and]
    show field (fill (store _ _ _ k) (c + blockOn) 32) c nChunksF ≤ _
    rw [field_fill_of_ne (by decide), field_store_self]
    exact (Nat.mod_le _ _).trans (by omega)
  | some x =>
    have hmem : x ∈ w.freeChunks.toList :=
      (SearchTree.treeUpperBound_mem hub).resolve_right (by simp)
    have hx := h.nChunks_le hmem
    obtain ⟨p, hp, haddr, -⟩ := h.takeChunks hmem
    have hcount : field w.nvm.mem x.nvmChunk nChunksF = x.nChunks := by
      rw [haddr]
      exact (h.nvm.quiet hp).1
    simp only [spec_bind, spec_modify, spec_ite, spec_pure]
    refine ⟨fun hlarge => ?_, fun _ => hcount.trans_le hx⟩
    unfold splitChunks addFreeChunk
    simp only [spec_bind, spec_storeField, spec_persist, spec_loadField, spec_modify, spec_pure,
      true_and]
    -- the last store goes to the header of the part that stays behind
    have hapart : x.nvmChunk + 64 ≤ x.nvmChunk + (x.nChunks - k) * chunkSize := by
      have hpos : chunkSize ≤ (x.nChunks - k) * chunkSize := Nat.le_mul_of_pos_left _ (by omega)
      simp only [chunkSize] at hpos ⊢
      omega
    show field (store (store _ _ _ k) (x.nvmChunk + nChunksF.off) nChunksF.width _)
      (x.nvmChunk + (x.nChunks - k) * chunkSize) nChunksF ≤ _
    rw [field_congr ((store_eqOff _ _ _ _).eqOn (Or.inr (by simp only [nChunksF]; omega))),
      field_store_self]
    exact (Nat.mod_le _ _).trans (by omega)

/-- A request that the heap cannot hold ends the process, if its count of chunks does not wrap around or
get cut. -/
theorem HeapInv.nvmReserve_too_large (h : HeapInv L w live) {a nBytes ptr : ℕ} {w' : World}
    (hhuge : maxNvmSpace < nBytes)
    (hfits : (nBytes + headerSize + chunkSize) / chunkSize < 2 ^ 32) :
    (nvmReserve a nBytes w).2 ≠ .ok (some ptr, w') := by
  intro hrun
  have hmax : maxNvmChunks = 25600 := by decide
  have hspace : maxNvmSpace = 107374182400 := by decide
  have hlarge : sclassLargeMax = 2097088 := by decide
  have hk : chunksFor nBytes = (nBytes + headerSize + chunkSize) / chunkSize := by
    simp only [chunksFor, headerSize, chunkSize] at hfits ⊢
    rw [Nat.mod_eq_of_lt (by omega)]
  have hbig : 25600 < chunksFor nBytes := by
    rw [hk]
    simp only [headerSize, chunkSize]
    omega
  unfold nvmReserve at hrun
  rw [if_neg (by omega)] at hrun
  obtain ⟨x, w₁, hrun, -⟩ := bind_result.mp hrun
  unfold nvmReserveChunks at hrun
  obtain ⟨_, _, hget, hrun⟩ := bind_result.mp hrun
  cases hget
  rw [Nat.mod_eq_of_lt (hk ▸ hfits)] at hrun
  cases hub : chunkUpperBound (chunksFor nBytes) w.freeChunks with
  | none =>
    rw [hub] at hrun
    obtain ⟨c, w₂, hgrow, -⟩ := bind_result.mp hrun
    have hle := ((activateMoreChunks_spec (C := fun _ => True) fun _ => trivial).result hgrow).2.2
    omega
  | some y =>
    have hmem := (SearchTree.treeUpperBound_mem hub).resolve_right (by simp)
    have hle : chunksFor nBytes ≤ y.nChunks := SearchTree.le_key_treeUpperBound (by simp) hub
    have hy := h.nChunks_le hmem
    omega

/-- An outstanding huge region holds its request. -/
theorem ProcInv.hasHugeCapacity {s : Sys} {r : Region} (h : ProcInv L s.w s.live) (hr : r ∈ s.live)
    (hhuge : sclassLargeMax < r.nBytes) : HasHugeCapacity s r.ptr r.nBytes := by
  have hregion : r ∈ s.hugeRegions := List.mem_filter.mpr ⟨hr, decide_eq_true hhuge⟩
  refine ⟨?_, h.chunks_partition, ?_⟩
  · cases h.live.placed r hr with
    | small hs =>
      simp only [sclassSmallMax, sclassLargeMax, chunkSize, blockSize] at hs hhuge
      omega
    | large _ hhi => omega
    | @huge _ p htile hptr =>
      have hcount : field s.w.nvm.mem (4096 * p) nChunksF = chunksFor r.nBytes :=
        (h.nvm.quiet htile).1
      have hbase : r.ptr - headerSize = 4096 * p := by
        rw [hptr]
        exact Nat.add_sub_cancel ..
      rw [hbase, hcount, chunksFor_eq (h.live.size r hr).2]
      simp only [chunkSize, headerSize]
      omega
  · unfold Sys.chunkRegions
    exact List.mem_append_right _ (List.mem_append_left _ (List.mem_map.mpr ⟨r, hregion, rfl⟩))

end

/-- **Capacity of huge allocations.** In every reachable state the region that `nvm_reserve` returns for
a request of more than SCLASS_LARGE_MAX bytes holds the request in its own chunks exactly when the
number of chunks, in exact arithmetic, fits in 32 bits. -/
theorem huge_capacity_iff {P : Process} {s : Sys} {a nBytes ptr : ℕ} {w' : World} (hs : Reachable P s)
    (ha : a < initialArenas) (hhuge : sclassLargeMax < nBytes) (h64 : nBytes < 2 ^ 64)
    (hrun : (nvmReserve a nBytes s.w).2 = .ok (some ptr, w')) :
    HasHugeCapacity ⟨w', ⟨ptr, nBytes, false⟩ :: s.live⟩ ptr nBytes ↔
      (nBytes + headerSize + chunkSize) / chunkSize < 2 ^ 32 := by
  obtain ⟨L, hproc, -⟩ := sysInv_of_reachable hs
  have hmax : maxNvmChunks = 25600 := by decide
  constructor
  · intro hcap
    have hcount := (nvmReserveChunks_count hproc.toHeapInv (chunksFor nBytes))
    unfold nvmReserve at hrun
    rw [if_neg (by omega)] at hrun
    obtain ⟨x, w₁, hrun, hpure⟩ := bind_result.mp hrun
    cases hpure
    have hle := hcount.result hrun
    have hinside := hcap.inside
    simp only [Nat.add_sub_cancel] at hinside
    simp only [chunkSize, headerSize] at hinside ⊢
    omega
  · intro hfits
    by_cases hspace : nBytes ≤ maxNvmSpace
    · have hspec := nvmReserve_spec (B := .any) hproc ha (by omega) hspace
        (fun _ => trivial) fun _ _ => Blame.any_converts
      obtain ⟨L', ptr', hptr, hproc', -⟩ := hspec.result hrun
      cases hptr
      exact hproc'.hasHugeCapacity (s := ⟨w', _⟩) List.mem_cons_self hhuge
    · exact absurd hrun (hproc.toHeapInv.nvmReserve_too_large (by omega) hfits)

/-- In a fresh heap a request of 3000000 bytes gets a chunk that holds it. -/
theorem huge_capacity_3000000 : ∃ s w', Reachable sampleProcess s ∧
    (nvmReserve 0 3000000 s.w).2 = .ok (some 83886144, w') ∧
    HasHugeCapacity ⟨w', ⟨83886144, 3000000, false⟩ :: s.live⟩ 83886144 3000000 := by
  have hany : ((sampleHistory []).any fun s =>
      returnsWith (fun r _ => decide (r = some 83886144)) (nvmReserve 0 3000000 s.w).2) = true := by
    decide +kernel
  obtain ⟨s, hs, hret⟩ := Process.exists_reachable hany
  obtain ⟨r, w', hrun, hr⟩ := of_returnsWith hret
  obtain rfl := of_decide_eq_true hr
  exact ⟨s, w', hs, hrun, (huge_capacity_iff hs (by decide) (by decide) (by decide) hrun).mpr
    (by decide)⟩

/-- In a fresh heap a request of 2^64 - 1 bytes gets a single chunk. -/
theorem huge_request_wraps : ∃ s w', Reachable sampleProcess s ∧
    (nvmReserve 0 (2 ^ 64 - 1) s.w).2 = .ok (some 83886144, w') ∧
    field w'.nvm.mem 83886080 nChunksF = 1 ∧
    ¬ HasHugeCapacity ⟨w', ⟨83886144, 2 ^ 64 - 1, false⟩ :: s.live⟩ 83886144 (2 ^ 64 - 1) := by
  have hany : ((sampleHistory []).any fun s =>
      returnsWith (fun r w' => decide (r = some 83886144 ∧ field w'.nvm.mem 83886080 nChunksF = 1))
        (nvmReserve 0 (2 ^ 64 - 1) s.w).2) = true := by
    decide +kernel
  obtain ⟨s, hs, hret⟩ := Process.exists_reachable hany
  obtain ⟨r, w', hrun, hr⟩ := of_returnsWith hret
  obtain ⟨rfl, hone⟩ := of_decide_eq_true hr
  refine ⟨s, w', hs, hrun, hone, fun hcap => ?_⟩
  have hinside := hcap.inside
  rw [show (83886144 - headerSize : ℕ) = 83886080 from rfl, hone] at hinside
  exact absurd hinside (by decide)

end NvmMalloc
