import NvmMalloc.RecoveredPools
import NvmMalloc.Classification

/-!
# Which arena a page run belongs to

Reference: `src/arena.c` (`arena_init`, `arena_create_block`, `arena_create_run`, `arena_add_chunk`,
`arena_free`, `arena_create_block_header`).

A chunk belongs to the arena that `arena_init` or `arena_add_chunk` has given it to.  The only trace of
this on NVM is the arena id in the headers of its page runs and runs, which decides where a freed
page run goes and in which tree recovery puts it.  `arena_add_chunk` does not write the id of the
page run it creates, so the headers of an added chunk name arena 0.
-/

namespace NvmMalloc

open Memory CrashM

/-! ## Ownership of chunks -/

/-- The owners of the chunks after a call. -/
def Op.owners (s : Sys) (owner : ℕ → ℕ) (op : Op) : ℕ → ℕ :=
  match op.addsChunk s with
  | some a => Function.update owner s.w.nvm.nextChunk a
  | none => owner

/-- The states between the calls of one process whose calls all satisfy `C`, with the arena that owns
each arena chunk: at the beginning chunk `c` belongs to arena `c`. -/
inductive OwnedRun (P : Process) (C : Sys → Op → Prop) : Sys → (ℕ → ℕ) → Prop where
  | start {nvm : Nvm} {fuel : ℕ} {w : World}
      (hinit : (nvmInitialize P.junk fuel false (P.start nvm)).2 = .ok ((), w)) :
      OwnedRun P C ⟨w, []⟩ chunkArena
  | step {s : Sys} {owner : ℕ → ℕ} {op : Op} {res : Option ℕ} {w' : World} (hs : OwnedRun P C s owner)
      (hC : C s op) (hvalid : op.Valid s) (hrun : (op.prog s.w).2 = .ok (res, w')) :
      OwnedRun P C ⟨w', op.ledger s res⟩ (op.owners s owner)

/-- A region that is served with a page run of its own. -/
def Region.Large (r : Region) : Prop := sclassSmallMax < r.nBytes ∧ r.nBytes ≤ sclassLargeMax

instance (r : Region) : Decidable r.Large :=
  inferInstanceAs (Decidable (sclassSmallMax < r.nBytes ∧ r.nBytes ≤ sclassLargeMax))

/-- Headers name the arena that owns their chunk: those of the nodes of the trees, of the outstanding
large regions and of the runs.  A freed page run returns to this arena. -/
structure ArenasRecorded (s : Sys) (owner : ℕ → ℕ) : Prop where
  tree : ∀ a, ∀ x ∈ (s.w.arenas a).freePageruns.toList,
    field s.w.nvm.mem x.nvmBlock blockArenaIdF = a ∧ owner (x.nvmBlock / chunkSize) = a
  large : ∀ r ∈ s.live, r.Large →
    field s.w.nvm.mem (r.ptr - headerSize) blockArenaIdF = owner (r.ptr / chunkSize)
  run : ∀ k < s.w.nVheaders,
    field s.w.nvm.mem (s.w.vheaders k).nvmRun runArenaIdF = (s.w.vheaders k).bin.1 ∧
      owner ((s.w.vheaders k).nvmRun / chunkSize) = (s.w.vheaders k).bin.1
  freed : ∀ r ∈ s.live, r.Large → r.active = true → ∀ l1 l2 w', LinkOk s.live l1 → LinkOk s.live l2 →
    (nvmFree r.ptr l1 l2 s.w).2 = .ok ((), w') →
      ∃ x ∈ (w'.arenas (owner (r.ptr / chunkSize))).freePageruns.toList,
        x.nvmBlock = r.ptr - headerSize

/-- Recovery has put the free page runs into the trees they were in.  The other nodes are large regions
that were reserved only; they too are with the owners of their chunks. -/
structure ArenasRestored (s : Sys) (owner : ℕ → ℕ) (w : World) : Prop where
  kept : ∀ a, ∀ x ∈ (s.w.arenas a).freePageruns.toList, x ∈ (w.arenas a).freePageruns.toList
  node : ∀ a, ∀ x ∈ (w.arenas a).freePageruns.toList, owner (x.nvmBlock / chunkSize) = a ∧
    (x ∈ (s.w.arenas a).freePageruns.toList ∨
      ∃ r ∈ s.live, r.active = false ∧ r.ptr = x.nvmBlock + headerSize)

/-! ## Growth of arena 0 only -/

section

variable {P P' : Process} {s : Sys} {owner : ℕ → ℕ} {L : Layout} {w w' : World} {p n : ℕ}

/-- While only arena 0 adds chunks, the headers name the owners. -/
theorem OwnedRun.arenaInv (h : OwnedRun P (fun s op => ∀ a, op.addsChunk s = some a → a = 0) s owner) :
    owner = chunkArena ∧ ∃ L, ProcInv L s.w s.live ∧ TableInv s.w ∧ ArenaInv L s.w.nvm.mem := by
  induction h with
  | start hinit =>
    obtain ⟨-, -, L, hproc, ht, harenas⟩ := (nvmInitialize_fresh_spec P _ _ _).result hinit
    exact ⟨rfl, L, hproc, ht, harenas⟩
  | @step s owner op res w' _ hC hvalid hrun ih =>
    obtain ⟨rfl, L, hproc, ht, harenas⟩ := ih
    obtain ⟨L', hproc', ht', -, hevolves⟩ := (op_evolves hproc ht hvalid).result hrun
    refine ⟨?_, L', hproc', ht', hevolves.arenas hC harenas⟩
    unfold Op.owners
    split
    · rename_i a ha
      obtain rfl := hC a ha
      have hend := hproc.toHeapInv.chunkArena_page (p := 1024 * s.w.nvm.nextChunk) le_rfl
      rw [Nat.mul_div_cancel_left _ (by decide)] at hend
      rw [← hend, Function.update_eq_self]
    · rfl

theorem chunk_of_page (p : ℕ) : 4096 * p / chunkSize = p / 1024 := by
  simp only [chunkSize]
  omega

/-- The free of a large region. -/
theorem ProcInv.freed_tree (h : ProcInv L s.w s.live) (harenas : ArenaInv L s.w.nvm.mem) {r : Region}
    (hr : r ∈ s.live) (hlarge : r.Large) (hactive : r.active = true) {l1 l2 : Option Link}
    (h1 : LinkOk s.live l1) (h2 : LinkOk s.live l2)
    (hrun : (nvmFree r.ptr l1 l2 s.w).2 = .ok ((), w')) :
    ∃ x ∈ (w'.arenas (chunkArena (r.ptr / chunkSize))).freePageruns.toList,
      x.nvmBlock = r.ptr - headerSize := by
  obtain ⟨hlo, hhi⟩ := hlarge
  rw [(h.toHeapInv.takesBranch hr).free hactive] at hrun
  have hclass : usageClass r.nBytes = .block := by
    unfold usageClass
    rw [if_neg (by omega), if_pos hhi]
  rw [hclass] at hrun
  cases h.live.placed r hr with
  | small hsize => omega
  | huge hlo' => omega
  | @large _ _ p htile hptr =>
    rw [hactive] at htile
    obtain ⟨-, hpage⟩ := h.large_ptr htile hptr
    simp only [freeAs, hpage] at hrun
    obtain ⟨L', hproc, -, -, hp, -⟩ := (arenaFreeLarge_spec h hptr htile h1 h2).result hrun
    have hchunk : r.ptr / chunkSize = p / 1024 := by
      simp only [chunkSize]
      omega
    rw [hchunk, ← (harenas p _ htile).1]
    refine ⟨⟨4096 * p, _, _⟩, ((hproc.pool.pages _).mem _).mpr ⟨p, hp, rfl, rfl⟩, ?_⟩
    show 4096 * p = r.ptr - headerSize
    rw [hptr, headerSize]
    omega

/-- **The headers name the owners of their chunks.** -/
theorem ProcInv.arenasRecorded (h : ProcInv L s.w s.live) (harenas : ArenaInv L s.w.nvm.mem) :
    ArenasRecorded s chunkArena where
  tree a x hx := by
    obtain ⟨p, hp, hblock, harena⟩ := ((h.pool.pages a).mem x).mp hx
    obtain ⟨hid, hpool⟩ := harenas p _ hp
    rw [hblock, chunk_of_page, hid, ← hpool a rfl]
    exact ⟨rfl, rfl⟩
  large r hr hlarge := by
    obtain ⟨hlo, hhi⟩ := hlarge
    cases h.live.placed r hr with
    | small hsize => omega
    | huge hlo' => omega
    | @large _ _ p htile hptr =>
      rw [show r.ptr - headerSize = 4096 * p by rw [hptr, headerSize]; omega,
        show r.ptr / chunkSize = p / 1024 by simp only [chunkSize]; omega]
      exact (harenas p _ htile).1
  run k hk := by
    obtain ⟨p, hp⟩ := h.runs.tile k hk
    have hof := (h.runs.run hp).2
    have hid : field s.w.nvm.mem (4096 * p) runArenaIdF = chunkArena (p / 1024) := harenas p _ hp
    rw [hof.nvmRun, hof.bin, chunk_of_page, hid]
    exact ⟨rfl, rfl⟩
  freed r hr hlarge hactive l1 l2 w' h1 h2 hrun := h.freed_tree harenas hr hlarge hactive h1 h2 hrun

end

/-! ## Clean restart -/

section

variable {P P' : Process} {s : Sys} {owner : ℕ → ℕ} {L : Layout} {w₀ w : World} {img : Nvm} {p₀ p n : ℕ}

/-- Recovery keeps the arena id of a page run. -/
theorem Recovered.arenaId_eq (h : Recovered P L p₀ img w₀ w) {o : Owner}
    (hp : L p = some (.block n o)) :
    field w.nvm.mem (4096 * p) blockArenaIdF = field img.mem (4096 * p) blockArenaIdF := by
  rw [h.scan.field_eq (by decide)]
  by_cases hnamed : NamedBefore img maxLogEntries p
  · refine field_congr fun x hx hx' => (h.log.done hp hnamed).1 x ?_ ?_ ?_ <;>
      simp only [blockArenaIdF] at hx hx' <;> omega
  · exact field_eqOn (h.log.same hp hnamed) (by decide)

/-- The tree of arena `a` after recovery, when the log loop has freed no page run: the page runs with a
free header that names `a`. -/
theorem Recovered.mem_tree (h : Recovered P L p₀ img w₀ w) (hno : ¬ FreesLoggedBlock img) {a : ℕ}
    {x : ArenaBlock} : x ∈ (w.arenas a).freePageruns.toList ↔
      ∃ p n o, L p = some (.block n o) ∧ usageAt w.nvm.mem p = usageFree ∧
        field img.mem (4096 * p) blockArenaIdF = a ∧ x = ⟨4096 * p, n, a⟩ := by
  have hlog : ¬ x ∈ (w₀.arenas a).freePageruns.toList := by
    rw [(h.log.pages a).mem_iff, List.mem_filter, h.inv.redone_pages]
    rintro ⟨⟨q, hnamed, hst, -⟩, -⟩
    exact hno ⟨q, hnamed, hst⟩
  rw [(h.scan.pages a).mem_iff, List.mem_append, or_iff_left hlog, List.mem_filter,
    h.scannedNodes_perm.mem_iff, freeHeaders, List.mem_map]
  simp only [List.mem_filter, decide_eq_true_eq, (perm_pagesBelow h.aligned).mem_iff, mem_pagesBelow]
  constructor
  · rintro ⟨⟨q, ⟨⟨-, hmod, hsome⟩, hfree⟩, rfl⟩, ha⟩
    obtain ⟨t, ht⟩ := Option.isSome_iff_exists.mp hsome
    obtain ⟨k, o, rfl⟩ := Recovered.block_of_free h.aligned ht hmod hfree
    refine ⟨q, k, o, ht, hfree, (h.arenaId_eq ht).symm.trans ha, ?_⟩
    unfold headerBlock at ha ⊢
    rw [(h.aligned.hdr ht).1, show field w.nvm.mem (4096 * q) blockArenaIdF = a from ha]
  · rintro ⟨q, k, o, ht, hfree, hid, rfl⟩
    have hfits := h.inv.ok.fits ht
    have hend := h.aligned.ok.add_len_le ht
    have hpos := h.aligned.ok.len_pos ht
    refine ⟨⟨q, ⟨⟨by omega, hfits.1, by rw [ht]; rfl⟩, hfree⟩, ?_⟩, rfl⟩
    unfold headerBlock
    rw [(h.aligned.hdr ht).1, h.arenaId_eq ht, hid]

/-- Between two calls no page run is being freed. -/
theorem NvmInv.not_freesLoggedBlock {nvm : Nvm} (h : NvmInv L nvm) : ¬ FreesLoggedBlock nvm := by
  rintro ⟨p, ⟨i, hi, hne, hp⟩, hst⟩
  obtain ⟨q, t, hq, hnames⟩ := h.log i hi hne
  obtain rfl : q = p := hnames.page.symm.trans hp
  have hsettled := (h.quiet hq).settled
  exact hsettled.2.1 (by rw [hst]; decide)

/-- The usage of a header that is not in transition survives recovery. -/
theorem Recovered.usage_eq (h : Recovered P L p₀ img w₀ w) (hinv : NvmInv L img) {o : Owner}
    (hp : L p = some (.block n o)) : usageAt w.nvm.mem p = getUsage (blockState o) := by
  have hquiet := hinv.quiet hp
  unfold usageAt
  rw [h.state_eq hp (by simp), redoneState_of_settled hquiet.settled, ite_self, hquiet.2.2.1]

/-- **Recovery puts the free page runs back into their trees.** -/
theorem ProcInv.arenasRestored (h : ProcInv L s.w s.live) (harenas : ArenaInv L s.w.nvm.mem)
    (hrec : RecoversHeap P' s.w.nvm w) : ArenasRestored s chunkArena w := by
  have hinv := h.nvm.imgInv 0
  have hclear : WordsClear L s.w.nvm :=
    (h.nvm.blames ⟨False, False, False, False, False, []⟩).wordsClear hinv id
  obtain ⟨w₀, hrecovered⟩ := exists_recovered hinv hclear hrec
  have hno := h.nvm.not_freesLoggedBlock
  refine ⟨fun a x hx => ?_, fun a x hx => ?_⟩
  · obtain ⟨p, hp, hblock, harena⟩ := ((h.pool.pages a).mem x).mp hx
    obtain ⟨hid, hpool⟩ := harenas p _ hp
    refine (hrecovered.mem_tree hno).mpr ⟨p, _, _, hp, ?_, hid.trans (hpool a rfl).symm, ?_⟩
    · rw [hrecovered.usage_eq h.nvm hp]
      show getUsage (usageFree + stateInitialized) = usageFree
      decide
    · rw [← hblock, ← harena]
  · obtain ⟨p, n, o, hp, hfree, hid, rfl⟩ := (hrecovered.mem_tree hno).mp hx
    rw [hrecovered.usage_eq h.nvm hp] at hfree
    have howner : chunkArena (p / 1024) = a := (harenas p _ hp).1.symm.trans hid
    refine ⟨by rw [chunk_of_page, howner], ?_⟩
    cases o with
    | pool b =>
      obtain rfl : b = a := ((harenas p _ hp).2 b rfl).trans howner
      exact Or.inl (((h.pool.pages b).mem _).mpr ⟨p, hp, rfl, rfl⟩)
    | held => exact absurd (h.owned hp) id
    | user active =>
      cases active with
      | true => exact absurd hfree (by decide)
      | false =>
        obtain ⟨r, hr, hptr⟩ := h.live.block hp
        have hpage : r.ptr / 4096 = p := by omega
        have hkind := (h.live.placed r hr).kind (h.live.size r hr).1 (hpage ▸ hp)
        simp only [reduceCtorEq, exists_false, and_false, false_or, or_false, Tile.block.injEq,
          Owner.user.injEq] at hkind
        exact Or.inr ⟨r, hr, hkind.2.2.2.2.symm, hptr⟩

end

/-! ## Whole histories -/

/-- **Ownership is recorded correctly** in every run in which only arena 0 adds chunks: every header
names the arena that owns its chunk, a freed page run returns to it, and recovery after a clean
shutdown completes with every free page run in the tree it was in. -/
theorem arenas_recorded {P : Process} {s : Sys} {owner : ℕ → ℕ}
    (h : OwnedRun P (fun s op => ∀ a, op.addsChunk s = some a → a = 0) s owner) :
    ArenasRecorded s owner ∧ ∀ P', (∃ w, RecoversHeap P' s.w.nvm w) ∧
      ∀ w, RecoversHeap P' s.w.nvm w → ArenasRestored s owner w := by
  obtain ⟨rfl, L, hproc, -, harenas⟩ := h.arenaInv
  refine ⟨hproc.arenasRecorded harenas, fun P' => ⟨?_, fun w hrec => hproc.arenasRestored harenas hrec⟩⟩
  exact (hproc.nvm.blames ⟨False, False, False, False, False, []⟩).exists_recoversHeap (hproc.nvm.imgInv 0)
    id id id id

section

variable {P : Process} {C : Sys → Op → Prop} {s s' : Sys} {owner : ℕ → ℕ} {ops : List Op}

theorem OwnedRun.execs (h : OwnedRun P C s owner) (hC : ∀ s, ∀ op ∈ ops, C s op)
    (hexec : s.execs ops = some s') : ∃ owner', OwnedRun P C s' owner' := by
  induction ops generalizing s owner with
  | nil => exact ⟨owner, Option.some.inj hexec ▸ h⟩
  | cons op ops ih =>
    obtain ⟨s₁, hcall, hrest⟩ := Option.bind_eq_some_iff.mp hexec
    cases Sys.step_of_exec hcall with
    | call hvalid hrun =>
      exact ih (h.step (hC s op List.mem_cons_self) hvalid hrun)
        (fun s op hop => hC s op (List.mem_cons_of_mem _ hop)) hrest

/-- A test of the state in which a history ends. -/
theorem Process.exists_ownedRun {nvm : Nvm} {fuel : ℕ} {p : Sys → Bool}
    (hC : ∀ s, ∀ op ∈ ops, C s op) (h : (P.history nvm fuel ops).any p = true) :
    ∃ s owner, OwnedRun P C s owner ∧ p s = true := by
  rw [Option.any_eq_true] at h
  obtain ⟨s, hs, hp⟩ := h
  unfold Process.history at hs
  cases hinit : (nvmInitialize P.junk fuel false (P.start nvm)).2 with
  | error e =>
    rw [hinit] at hs
    exact absurd hs (by simp)
  | ok x =>
    rw [hinit] at hs
    obtain ⟨owner, hrun⟩ := (OwnedRun.start (C := C) hinit).execs hC hs
    exact ⟨s, owner, hrun, hp⟩

end

/-- Two regions of 511 pages and one of two pages: the third does not fit into the chunk of the arena. -/
def growingCalls (a : ℕ) : List Op := [.reserve a 2093056, .reserve a 2093056, .reserve a 5000]

/-- Arena 0 adds a chunk to itself. -/
theorem arenas_recorded_growth : ∃ s owner,
    OwnedRun sampleProcess (fun s op => ∀ a, op.addsChunk s = some a → a = 0) s owner ∧
      s.w.nvm.nextChunk = 21 ∧ ArenasRecorded s owner ∧
      ∀ P', (∃ w, RecoversHeap P' s.w.nvm w) ∧
        ∀ w, RecoversHeap P' s.w.nvm w → ArenasRestored s owner w := by
  have hcalls : ((sampleHistory (growingCalls 0)).any fun s =>
      decide (s.w.nvm.nextChunk = 21)) = true := by
    decide +kernel
  have hzero : ∀ s, ∀ op ∈ growingCalls 0, ∀ a, op.addsChunk s = some a → a = 0 := by
    intro s op hop a ha
    simp only [growingCalls, List.mem_cons, List.not_mem_nil, or_false] at hop
    rcases hop with rfl | rfl | rfl <;> simp only [Op.addsChunk, Option.ite_none_right_eq_some,
      Option.some.injEq] at ha <;> exact ha.2.symm
  obtain ⟨s, owner, hrun, hchunks⟩ := Process.exists_ownedRun hzero hcalls
  exact ⟨s, owner, hrun, of_decide_eq_true hchunks, arenas_recorded hrun⟩

/-- Arena 1 adds a chunk to itself: the rest of the chunk is a node of its tree, and its header names
arena 0. -/
theorem arenas_not_recorded_growth : ∃ s owner, OwnedRun sampleProcess (fun _ _ => True) s owner ∧
    ¬ ArenasRecorded s owner := by
  have hcalls : ((sampleHistory (growingCalls 1)).any fun s =>
      (s.w.arenas 1).freePageruns.toList.any fun x =>
        decide (field s.w.nvm.mem x.nvmBlock blockArenaIdF ≠ 1)) = true := by
    decide +kernel
  obtain ⟨s, owner, hrun, htest⟩ := Process.exists_ownedRun (C := fun _ _ => True)
    (fun _ _ _ => trivial) hcalls
  obtain ⟨x, hx, hid⟩ := List.any_eq_true.mp htest
  exact ⟨s, owner, hrun, fun h => of_decide_eq_true hid (h.tree 1 x hx).1⟩

end NvmMalloc
