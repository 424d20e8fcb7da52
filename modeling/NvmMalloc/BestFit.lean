import NvmMalloc.Frame

/-!
# Best-fit search in the trees of free space

Reference: `src/arena.c` (`tree_upper_bound`, `block_node_compare`), `src/nvm_malloc.c`
(`tree_upper_bound`, `chunk_node_compare`).

A node is taken out of its tree before its size changes and put back afterwards, so the only changes
of a tree are `treeAdd` and `treeDel`.  Both keep the search order, whatever the state and the
arguments of the call: the order is kept by every function of the library, initialisation and recovery
included, and needs no usage contract.
-/

namespace NvmMalloc

open CrashM

/-- Every tree of free page runs and the tree of free chunks is in search order. -/
structure TreesOrdered (w : World) : Prop where
  pageruns : ∀ a, (w.arenas a).freePageruns.Ordered ArenaBlock.nPages
  chunks : w.freeChunks.Ordered Huge.nChunks

namespace TreesOrdered

variable {w : World}

theorem start (P : Process) (nvm : Nvm) : TreesOrdered (P.start nvm) :=
  ⟨fun _ => (trivial : (SearchTree.nil).Ordered _), (trivial : (SearchTree.nil).Ordered _)⟩

theorem setArena (h : TreesOrdered w) {a : ℕ} {x : Arena}
    (hx : x.freePageruns.Ordered ArenaBlock.nPages) : TreesOrdered (w.setArena a x) := by
  refine ⟨fun a' => ?_, h.chunks⟩
  show ((Function.update w.arenas a x) a').freePageruns.Ordered _
  by_cases ha : a' = a
  · rw [ha, Function.update_self]
    exact hx
  · rw [Function.update_of_ne ha]
    exact h.pageruns a'

theorem setBin (h : TreesOrdered w) (ab : ℕ × ℕ) (b : ArenaBin) : TreesOrdered (w.setBin ab b) :=
  h.setArena (h.pageruns ab.1)

/-- The trees do not depend on the VHeaders. -/
theorem setVheaders (h : TreesOrdered w) (H : ℕ → ArenaRun) :
    TreesOrdered { w with vheaders := H } :=
  ⟨h.pageruns, h.chunks⟩

end TreesOrdered

/-! ## Stores and volatile updates -/

section

variable {a i v : ℕ}

instance : IgnoresMem TreesOrdered := ⟨fun h _ => ⟨h.1, h.2⟩⟩

instance : Preserves TreesOrdered (storeLog i v) := preserves_commit fun _ h => ⟨h.1, h.2⟩

instance : Preserves TreesOrdered (storeVersion v) := preserves_commit fun _ h => ⟨h.1, h.2⟩

instance : Preserves TreesOrdered initializeChunks := preserves_commit fun _ h => ⟨h.1, h.2⟩

instance {g : World → ObjectTable} :
    Preserves TreesOrdered (modify fun w => w.setOt (g w) : Prog Unit) :=
  preserves_modify fun _ h => ⟨h.1, h.2⟩

instance {ab : ℕ × ℕ} {g : World → ArenaBin} :
    Preserves TreesOrdered (modify fun w => w.setBin ab (g w) : Prog Unit) :=
  preserves_modify fun _ h => h.setBin _ _

instance {b : ArenaBlock} : Preserves TreesOrdered (addFreePagerun a b) :=
  preserves_modify fun _ h => h.setArena ((h.pageruns a).treeAdd b)

instance {x : Huge} : Preserves TreesOrdered (addFreeChunk x) :=
  preserves_modify fun _ h => ⟨h.pageruns, h.chunks.treeAdd x⟩

end

/-! ## Allocation -/

section

variable {a b nBytes nPages nChunks reqPages h : ℕ}

instance : Preserves TreesOrdered (activateMoreChunks nChunks) := by
  have hgrow : ∀ k, Preserves TreesOrdered (commit (fun w => Event.storeMeta w.nvm) fun w =>
      { w with nvm := { w.nvm with nextChunk := w.nvm.nextChunk + k } } : Prog Unit) :=
    fun k => preserves_commit fun _ h => ⟨h.1, h.2⟩
  dsimp only [activateMoreChunks]
  infer_instance

instance : Preserves TreesOrdered (arenaAddChunk a) := by
  dsimp only [arenaAddChunk]
  infer_instance

instance : Preserves TreesOrdered (arenaTakeBlock a reqPages) := by
  have htake : ∀ x, Preserves TreesOrdered
      (modify fun w => w.setTree a ((w.arenas a).freePageruns.treeDel x) : Prog Unit) :=
    fun x => preserves_modify fun _ h => h.setArena ((h.pageruns a).treeDel x)
  have hmatch : ∀ o : Option ArenaBlock, Preserves TreesOrdered (match o with
      | none => arenaAddChunk a
      | some x => do
        assertThat (reqPages ≤ x.nPages)
        modify fun w => w.setTree a ((w.arenas a).freePageruns.treeDel x)
        pure x) := by
    rintro (_ | x) <;> infer_instance
  dsimp only [arenaTakeBlock]
  infer_instance

instance {f : ArenaRun → ArenaRun} : Preserves TreesOrdered (mallocRun f) := by
  have hmalloc : Preserves TreesOrdered (modify fun w => { w with
      vheaders := Function.update w.vheaders w.nVheaders (f (w.vheaders w.nVheaders))
      nVheaders := w.nVheaders + 1 } : Prog Unit) := preserves_modify fun _ h => ⟨h.1, h.2⟩
  dsimp only [mallocRun]
  infer_instance

instance {x : ArenaBlock} : Preserves TreesOrdered (createRunAtEnd a b nBytes x) := by
  dsimp only [createRunAtEnd]
  infer_instance

instance {x : ArenaBlock} : Preserves TreesOrdered (convertToRun a b nBytes x) := by
  dsimp only [convertToRun]
  infer_instance

instance : Preserves TreesOrdered (arenaCreateRun a b nBytes) := by
  dsimp only [arenaCreateRun]
  infer_instance

instance : Preserves TreesOrdered (arenaCreateBlock a nPages) := by
  dsimp only [arenaCreateBlock]
  infer_instance

instance : Preserves TreesOrdered (arenaCreateRunHeader h) := by
  dsimp only [arenaCreateRunHeader]
  infer_instance

instance : Preserves TreesOrdered (arenaCreateBlockHeader h) := by
  dsimp only [arenaCreateBlockHeader]
  infer_instance

instance : Preserves TreesOrdered (arenaSelectRun a b nBytes) := by
  have hmatch : ∀ o : Option (ℕ × ArenaBin), Preserves TreesOrdered (match o with
      | none => throw Stop.fault
      | some (run, bin) => do
        modify fun w => w.setBin (a, b) bin
        pure run : Prog ℕ) := by
    rintro (_ | x) <;> infer_instance
  dsimp only [arenaSelectRun]
  infer_instance

instance : Preserves TreesOrdered (arenaAllocate a nBytes) := by
  have htake : ∀ ab H b', Preserves TreesOrdered
      (modify fun w => { w with vheaders := H }.setBin ab b' : Prog Unit) :=
    fun ab H b' => preserves_modify fun _ h => (h.setVheaders H).setBin ab b'
  dsimp only [arenaAllocate]
  infer_instance

end

/-! ## Activation and deallocation -/

section

variable {a ptr h on st committed final runIdx nBytes nChunks k i n v : ℕ} {l : Link}
  {l1 l2 : Option Link} {id : List UInt8} {fuel : ℕ} {junk : ℕ → List UInt8}

instance : Preserves TreesOrdered (ensureVheader h) := by
  unfold ensureVheader
  infer_instance

instance : Preserves TreesOrdered (arenaFreeLarge h l1 l2) := by
  unfold arenaFreeLarge
  infer_instance

instance : Preserves TreesOrdered (arenaFreeSmall ptr h l1 l2) := by
  have hrelease : ∀ run j, Preserves TreesOrdered (modify fun w =>
      { w with vheaders := (releaseSlot w.vheaders (w.bin (w.vheaders run).bin) run j).1 }.setBin
        (w.vheaders run).bin (releaseSlot w.vheaders (w.bin (w.vheaders run).bin) run j).2 :
      Prog Unit) :=
    fun run j => preserves_modify fun _ h => (h.setVheaders _).setBin _ _
  dsimp only [arenaFreeSmall]
  infer_instance

instance : Preserves TreesOrdered (arenaFree ptr l1 l2) := by
  dsimp only [arenaFree]
  infer_instance

instance : Preserves TreesOrdered (nvmReserve a nBytes) := by
  have htake : ∀ x, Preserves TreesOrdered
      (modify fun w => { w with freeChunks := w.freeChunks.treeDel x } : Prog Unit) :=
    fun x => preserves_modify fun _ h => ⟨h.pageruns, h.chunks.treeDel x⟩
  have hmatch : ∀ o : Option Huge, Preserves TreesOrdered (match o with
      | none => nvmReserveHuge (chunksFor nBytes)
      | some huge => do
        modify fun w => { w with freeChunks := w.freeChunks.treeDel huge }
        if huge.nChunks > chunksFor nBytes then
          splitChunks huge (chunksFor nBytes)
        else
          pure huge.nvmChunk) := by
    rintro (_ | x)
    · dsimp only [nvmReserveHuge]
      infer_instance
    · dsimp only [splitChunks]
      infer_instance
  dsimp only [nvmReserve, nvmReserveChunks]
  infer_instance

instance : Preserves TreesOrdered (nvmActivate ptr l1 l2) := by
  have hnext : Preserves TreesOrdered (modify fun w =>
      { w with nextLogEntry := (w.nextLogEntry + 1) % 2 ^ 64 } : Prog Unit) :=
    preserves_modify fun _ h => ⟨h.1, h.2⟩
  dsimp only [nvmActivate, logActivate]
  infer_instance

instance : Preserves TreesOrdered (nvmFree ptr l1 l2) := by
  dsimp only [nvmFree]
  infer_instance

/-! ## Named objects -/

instance : Preserves TreesOrdered otTakeSlot := by
  unfold otTakeSlot
  infer_instance

instance : Preserves TreesOrdered (otInsert id v) := by
  have hmatch : ∀ o : Option ℕ, Preserves TreesOrdered (match o with
      | none => pure .fail
      | some slot => do
        modify fun w => w.setOt
          (hashmapInsert w.ot ⟨id.take maxIdLength, slot, v, otSlotAddr slot⟩)
        pure OtResult.ok : Prog OtResult) := by
    rintro (_ | slot) <;> infer_instance
  dsimp only [otInsert]
  infer_instance

instance : Preserves TreesOrdered (otRemove id) := by
  constructor
  intro w w' res hw hrun
  unfold otRemove at hrun
  obtain ⟨_, _, hget, hrun⟩ := bind_result.mp hrun
  cases hget
  cases hentry : otGet w.ot id with
  | none =>
    rw [hentry] at hrun
    exact preserves_pure.out hw hrun
  | some e =>
    rw [hentry] at hrun
    dsimp only at hrun
    exact Preserves.out hw hrun

instance : Preserves TreesOrdered (nvmReserveId id a nBytes) := by
  have hmatch : ∀ o : Option ℕ, Preserves TreesOrdered (match o with
      | none => pure none
      | some mem => do
        let _ ← otInsert id mem
        pure (some mem) : Prog (Option ℕ)) := by
    rintro (_ | mem) <;> infer_instance
  dsimp only [nvmReserveId]
  infer_instance

instance : Preserves TreesOrdered (nvmActivateId id) := by
  have hmatch : ∀ o : Option OtEntry, Preserves TreesOrdered (match o with
      | none => pure ()
      | some otEntry => do
        persistId otEntry.nvmEntry id otEntry.dataPtr
        nvmActivate otEntry.dataPtr none none
        storeField otEntry.nvmEntry stateF stateInitialized
        persist otEntry.nvmEntry : Prog Unit) := by
    rintro (_ | e)
    · infer_instance
    · dsimp only [persistId, strncpy]
      infer_instance
  dsimp only [nvmActivateId]
  infer_instance

instance : Preserves TreesOrdered (nvmFreeId id) := by
  have hmatch : ∀ o : Option OtEntry, Preserves TreesOrdered (match o with
      | none => pure ()
      | some otEntry => do
        storeField otEntry.nvmEntry stateF stateFreeing
        persist otEntry.nvmEntry
        nvmFree otEntry.dataPtr none none
        let _ ← otRemove id
        pure () : Prog Unit) := by
    rintro (_ | e) <;> infer_instance
  dsimp only [nvmFreeId]
  infer_instance

instance {op : Op} : Preserves TreesOrdered op.prog := by
  cases op <;> (dsimp only [Op.prog]; infer_instance)

/-! ## Start of a process -/

instance {c : Option ℕ} : Preserves TreesOrdered (arenaInit a c) := by
  have hinit : Preserves TreesOrdered
      (modify fun w => w.setArena a ⟨fun _ => ⟨none, 0, 0, none⟩, .nil⟩ : Prog Unit) :=
    preserves_modify fun _ h => h.setArena trivial
  cases c <;> (dsimp only [arenaInit]; infer_instance)

instance : Preserves TreesOrdered (initialChunkSetup i) := by
  dsimp only [initialChunkSetup]
  infer_instance

instance : Preserves TreesOrdered nvmInitializeEmpty := by
  have hversion : Preserves TreesOrdered
      (modify fun w => { w with currentVersion := 0 } : Prog Unit) :=
    preserves_modify fun _ h => ⟨h.1, h.2⟩
  dsimp only [nvmInitializeEmpty]
  infer_instance

instance : Preserves TreesOrdered (otInitLoop fuel h) := by
  induction fuel generalizing h with
  | zero => exact preserves_throw
  | succ fuel ih =>
    unfold otInitLoop
    infer_instance

instance : Preserves TreesOrdered (otInit fuel) := by
  unfold otInit
  infer_instance

instance : Preserves TreesOrdered (replayLinks h on) := by
  unfold replayLinks replayLink
  infer_instance

instance {release : Prog Unit} [Preserves TreesOrdered release] :
    Preserves TreesOrdered (recoverHeader h v release) := by
  unfold recoverHeader settleHeader
  infer_instance

instance : Preserves TreesOrdered (recoverRun h) := by
  have hpush : ∀ run, Preserves TreesOrdered (pushRun run) :=
    fun run => preserves_modify fun _ h => (h.setVheaders _).setBin _ _
  unfold recoverRun replayRun replayIdx
  infer_instance

instance : Preserves TreesOrdered (recoverHuge h) := by
  unfold recoverHuge
  infer_instance

instance : Preserves TreesOrdered (recoverBlock h) := by
  unfold recoverBlock
  infer_instance

instance : Preserves TreesOrdered (recoverLogEntry i) := by
  constructor
  intro w w' _ hw hrun
  unfold recoverLogEntry at hrun
  obtain ⟨_, _, hget, hrun⟩ := bind_result.mp hrun
  cases hget
  rcases hu : identifyUsage w.nvm.mem (w.nvm.log i) with _ | _ | _ | _ <;>
    (dsimp only at hrun; rw [hu] at hrun; exact Preserves.out hw hrun)

instance : Preserves TreesOrdered (scanRun h) := by
  dsimp only [scanRun]
  infer_instance

instance : Preserves TreesOrdered (scanPages a fuel h) := by
  induction fuel generalizing h with
  | zero => exact preserves_throw
  | succ fuel ih =>
    dsimp only [scanPages]
    infer_instance

instance : Preserves TreesOrdered (scanChunks a n fuel h) := by
  induction fuel generalizing h with
  | zero => exact preserves_throw
  | succ fuel ih =>
    dsimp only [scanChunks]
    infer_instance

instance : Preserves TreesOrdered (recoverHeap fuel) := by
  have hversion : Preserves TreesOrdered
      (modify fun w => { w with currentVersion := w.nvm.version } : Prog Unit) :=
    preserves_modify fun _ h => ⟨h.1, h.2⟩
  dsimp only [recoverHeap, nvmInitializeRecovered, nvmRecoveryThread]
  infer_instance

instance : Preserves TreesOrdered (otKeep ptr) := by
  constructor
  intro w w' keep hw hrun
  unfold otKeep at hrun
  obtain ⟨_, _, hget, hrun⟩ := bind_result.mp hrun
  cases hget
  rcases hu : identifyUsage w.nvm.mem ptr with _ | _ | _ | _ <;> rw [hu] at hrun <;>
    exact Preserves.out hw hrun

instance : Preserves TreesOrdered (otCollectGaps n k) := by
  induction k generalizing n with
  | zero => exact preserves_pure
  | succ k ih =>
    unfold otCollectGaps
    infer_instance

instance : Preserves TreesOrdered (otRecoverEntry h) := by
  dsimp only [otRecoverEntry]
  infer_instance

instance : Preserves TreesOrdered (otRecoverSlot junk h i n) := by
  dsimp only [otRecoverSlot]
  infer_instance

instance : Preserves TreesOrdered (otRecoverChunk junk h i k n v) := by
  induction k generalizing i n v with
  | zero => exact preserves_pure
  | succ k ih =>
    unfold otRecoverChunk
    infer_instance

instance : Preserves TreesOrdered (otRecoverLoop junk fuel h n v) := by
  induction fuel generalizing h n v with
  | zero => exact preserves_throw
  | succ fuel ih =>
    unfold otRecoverLoop
    infer_instance

instance {recover : Bool} : Preserves TreesOrdered (nvmInitialize junk fuel recover) := by
  unfold nvmInitialize otRecover
  infer_instance

end

/-! ## Every state between two calls -/

/-- The states between the calls of a process that started on any image, with or without recovery, and
then made any calls, whatever their arguments. -/
inductive Operated (P : Process) : World → Prop where
  | start {nvm : Nvm} {fuel : ℕ} {recover : Bool} {w : World}
      (hinit : (nvmInitialize P.junk fuel recover (P.start nvm)).2 = .ok ((), w)) : Operated P w
  | call {w w' : World} {op : Op} {res : Option ℕ} (hw : Operated P w)
      (hrun : (op.prog w).2 = .ok (res, w')) : Operated P w'

theorem Operated.treesOrdered {P : Process} {w : World} (h : Operated P w) : TreesOrdered w := by
  induction h with
  | start hinit => exact Preserves.out (TreesOrdered.start _ _) hinit
  | call _ hrun ih => exact Preserves.out ih hrun

/-- A client that keeps the usage contract makes calls. -/
theorem Reachable.operated {P : Process} {s : Sys} (h : Reachable P s) : Operated P s.w := by
  induction h with
  | start hinit => exact .start hinit
  | step _ hstep ih =>
    cases hstep with
    | call _ hrun => exact ih.call hrun

/-- **In every state that a process reaches, the trees of free page runs and of free chunks are search
trees on the sizes of their nodes, and `tree_upper_bound` returns the best fit for every request.** -/
theorem upper_bound_best_fit {P : Process} {w : World} (h : Operated P w) :
    (∀ a, (w.arenas a).freePageruns.Ordered ArenaBlock.nPages ∧
      ∀ req, (w.arenas a).freePageruns.BestFit ArenaBlock.nPages req
        (blockUpperBound req (w.arenas a).freePageruns)) ∧
    w.freeChunks.Ordered Huge.nChunks ∧
      ∀ req, w.freeChunks.BestFit Huge.nChunks req (chunkUpperBound req w.freeChunks) := by
  have hord := h.treesOrdered
  exact ⟨fun a => ⟨hord.pageruns a, (hord.pageruns a).bestFit⟩, hord.chunks, hord.chunks.bestFit⟩

/-- Two huge regions are freed; a request for two chunks gets the second one. -/
theorem upper_bound_best_fit_freed : ∃ w, Operated sampleProcess w ∧
    w.freeChunks.toList = [⟨83886080, 1⟩, ⟨88080384, 2⟩] ∧
    w.freeChunks.BestFit Huge.nChunks 2 (some ⟨88080384, 2⟩) := by
  have hany : (sampleHistory
      [.reserve 0 3000000, .reserve 0 5000000, .activate 83886144 none none,
        .activate 88080448 none none, .free 88080448 none none, .free 83886144 none none]).any
      (fun s => s.w.freeChunks.toList = [⟨83886080, 1⟩, ⟨88080384, 2⟩] ∧
        chunkUpperBound 2 s.w.freeChunks = some ⟨88080384, 2⟩) = true := by decide +kernel
  obtain ⟨s, hs, htree⟩ := Process.exists_reachable hany
  obtain ⟨hlist, hbound⟩ := of_decide_eq_true htree
  have hfit := (upper_bound_best_fit hs.operated).2.2 2
  rw [hbound] at hfit
  exact ⟨s.w, hs.operated, hlist, hfit⟩

end NvmMalloc
