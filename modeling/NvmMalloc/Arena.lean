import NvmMalloc.Types

/-!
# Chunks and arenas

Reference: `src/chunk.c` (`activate_more_chunks`), `src/arena.c`.

The mutexes and fences have no effect in a single thread and under strict persist order and are left
out; the parts of `arena_allocate` and `arena_free` that run under a bin's mutex are pure functions
(`selectRun`, `takeSlot`, `releaseSlot`) of the VHeaders and the bin, so that they can also be studied
on their own.
-/

namespace NvmMalloc

open Memory CrashM

/-! ## Chunks -/

/-- `activate_more_chunks`: grow the backing file.  `posix_fallocate` extends it with zeros. -/
def activateMoreChunks (nChunks : ℕ) : Prog ℕ := do
  let w ← get
  if w.nvm.nextChunk + nChunks > maxNvmChunks then
    throw .exit
  else
    commit (fun w => .storeMeta w.nvm) fun w =>
      { w with nvm := { w.nvm with nextChunk := w.nvm.nextChunk + nChunks } }
    pure (w.nvm.nextChunk * chunkSize)

/-! ## Free page runs -/

/-- `tree_upper_bound` of `arena.c` -/
def blockUpperBound (reqPages : ℕ) (t : SearchTree ArenaBlock) : Option ArenaBlock :=
  t.treeUpperBound ArenaBlock.nPages reqPages none

/-- `tree_add` with `block_node_compare` on the tree of arena `a`. -/
def addFreePagerun (a : ℕ) (b : ArenaBlock) : Prog Unit :=
  modify fun w => w.setTree a ((w.arenas a).freePageruns.treeAdd ArenaBlock.nPages b)

/-- `arena_add_chunk` -/
def arenaAddChunk (a : ℕ) : Prog ArenaBlock := do
  let chunk ← activateMoreChunks 1
  let nvmBlock := chunk + blockSize
  -- first initialize the chunk
  memset0 (chunk + headerSize) (63 * headerSize)
  storeField chunk stateF (usageArena + stateInitializing)
  storeField chunk nextOtChunkF 0
  persistRange chunk blockSize
  -- create initial free block; `arena_id` is not written here
  memset0 (nvmBlock + blockOn) 32
  storeField nvmBlock stateF (usageFree + stateInitialized)
  storeField nvmBlock nPagesF (chunkSize / blockSize - 1)
  persist nvmBlock
  -- set chunk's status to initialized
  storeField chunk stateF (usageArena + stateInitialized)
  persist chunk
  pure ⟨nvmBlock, chunkSize / blockSize - 1, a⟩

/-- The search for a free page run at the head of `arena_create_run` and `arena_create_block`: unlink
the best fit, or add a chunk. -/
def arenaTakeBlock (a reqPages : ℕ) : Prog ArenaBlock := do
  let w ← get
  match blockUpperBound reqPages (w.arenas a).freePageruns with
  | none => arenaAddChunk a
  | some b =>
    assertThat (reqPages ≤ b.nPages)
    modify fun w => w.setTree a ((w.arenas a).freePageruns.treeDel b)
    pure b

/-! ## Runs -/

/-- The slots of a run with this element size. -/
def slotsPerRun (nBytes : ℕ) : ℕ := (blockSize - 64) / nBytes

/-- `malloc` of an `arena_run_t`, initialised by `f` from whatever the memory held. -/
def mallocRun (f : ArenaRun → ArenaRun) : Prog ℕ := do
  let w ← get
  modify fun w =>
    { w with
      vheaders := Function.update w.vheaders w.nVheaders (f (w.vheaders w.nVheaders))
      nVheaders := w.nVheaders + 1 }
  pure w.nVheaders

/-- The fields `arena_create_run` writes; `next` keeps the contents `malloc` returned. -/
def freshRun (a b nBytes nvmRun : ℕ) (x : ArenaRun) : ArenaRun :=
  { x with
    nvmRun := nvmRun
    bin := (a, b)
    elemSize := nBytes
    nFree := slotsPerRun nBytes
    nMax := slotsPerRun nBytes
    bitmap := fun _ => false }

/-- The branch of `arena_create_run` for a block that is too large: create volatile and nonvolatile run
objects at the end of the free block, shrink the block and reinsert it into the tree. -/
def createRunAtEnd (a b nBytes : ℕ) (freeBlock : ArenaBlock) : Prog ℕ := do
  let nvmRun := freeBlock.nvmBlock + (freeBlock.nPages - 1) * blockSize
  let run ← mallocRun (freshRun a b nBytes nvmRun)
  let w ← get
  memset0 nvmRun headerSize
  storeField nvmRun stateF (usageRun + stateInitialized)
  storeField nvmRun nBytesF nBytes
  storeField nvmRun vdataF run
  storeField nvmRun bitIdxF bitIdxNone
  storeField nvmRun runArenaIdF a
  storeField nvmRun versionF w.currentVersion
  persist nvmRun
  storeField freeBlock.nvmBlock nPagesF (freeBlock.nPages - 1)
  persist freeBlock.nvmBlock
  addFreePagerun a { freeBlock with nPages := freeBlock.nPages - 1 }
  pure run

/-- The branch of `arena_create_run` for a block of the right size: convert the free block to a run. -/
def convertToRun (a b nBytes : ℕ) (freeBlock : ArenaBlock) : Prog ℕ := do
  let nvmRun := freeBlock.nvmBlock
  let run ← mallocRun (freshRun a b nBytes nvmRun)
  let w ← get
  memset0 nvmRun headerSize
  storeField nvmRun vdataF run
  memset0 (nvmRun + 48) 8
  storeField nvmRun bitIdxF bitIdxNone
  storeField nvmRun runArenaIdF a
  storeField nvmRun versionF w.currentVersion
  storeField nvmRun stateF (usageRun + stateInitialized)
  storeField nvmRun nBytesF nBytes
  persist nvmRun
  let st ← loadField nvmRun stateF
  assertThat (st = usageRun + stateInitialized)
  pure run

/-- `arena_create_run` -/
def arenaCreateRun (a b nBytes : ℕ) : Prog ℕ := do
  assertThat (0 < nBytes)
  let freeBlock ← arenaTakeBlock a 1
  if freeBlock.nPages > 1 then
    createRunAtEnd a b nBytes freeBlock
  else
    convertToRun a b nBytes freeBlock

/-- `arena_create_block` -/
def arenaCreateBlock (a nPages : ℕ) : Prog ℕ := do
  let freeBlock ← arenaTakeBlock a nPages
  if freeBlock.nPages > nPages then
    -- create nonvolatile block object at the end of the free block; `on` keeps its old contents
    let nvmBlock := freeBlock.nvmBlock + (freeBlock.nPages - nPages) * blockSize
    storeField nvmBlock stateF (usageFree + stateInitialized)
    storeField nvmBlock nPagesF nPages
    storeField nvmBlock blockArenaIdF a
    persist nvmBlock
    -- shrink the free block and reinsert into tree
    let old ← loadField freeBlock.nvmBlock nPagesF
    storeField freeBlock.nvmBlock nPagesF (old + 2 ^ 32 - nPages)
    let left ← loadField freeBlock.nvmBlock nPagesF
    assertThat (0 < left)
    persist freeBlock.nvmBlock
    addFreePagerun a { freeBlock with nPages := freeBlock.nPages - nPages }
    pure nvmBlock
  else
    pure freeBlock.nvmBlock

/-- The loop of `arena_create_run_header` that counts the clear bits. -/
def clearBits (bitmap : ℕ → Bool) (n : ℕ) : ℕ := (List.range n).countP fun i => !bitmap i

/-- `arena_create_run_header`.  An arena or bin index out of range and an element size of zero are
undefined in C. -/
def arenaCreateRunHeader (nvmRun : ℕ) : Prog ℕ := do
  let a ← loadField nvmRun runArenaIdF
  let nBytes ← loadField nvmRun nBytesF
  let w ← get
  if a < initialArenas ∧ 0 < nBytes / 64 ∧ nBytes / 64 ≤ 31 then
    mallocRun fun x =>
      { x with
        nvmRun := nvmRun
        bin := (a, nBytes / 64 - 1)
        elemSize := nBytes
        nMax := slotsPerRun nBytes
        nFree := clearBits (bitmapBit w.nvm.mem nvmRun) (slotsPerRun nBytes)
        bitmap := bitmapBit w.nvm.mem nvmRun
        next := none }
  else
    throw .fault

/-- `arena_create_block_header`.  `n_pages` is a `uint16_t` in the volatile header. -/
def arenaCreateBlockHeader (nvmBlock : ℕ) : Prog ArenaBlock := do
  let nPages ← loadField nvmBlock nPagesF
  let a ← loadField nvmBlock blockArenaIdF
  if a < initialArenas then
    pure ⟨nvmBlock, nPages % 2 ^ 16, a⟩
  else
    throw .fault

/-! ## The sections of `arena_allocate` and `arena_free` under the bin's mutex -/

/-- Select another run from the bin's list; `none` is a read through a null `bin->runs`. -/
def popRun (H : ℕ → ArenaRun) (b : ArenaBin) : Option (ℕ × ArenaBin) :=
  match b.runs with
  | none => none
  | some r => some (r, { b with runs := (H r).next, currentRun := some r })

/-- The run a small request is served from when the bin has free slots. -/
def selectRun (H : ℕ → ArenaRun) (b : ArenaBin) : Option (ℕ × ArenaBin) :=
  match b.currentRun with
  | none => popRun H b
  | some r => if (H r).nFree = 0 then popRun H b else some (r, b)

/-- The bin after a new run was created for it. -/
def addRun (b : ArenaBin) (r nBytes : ℕ) : ArenaBin :=
  { b with
    currentRun := some r
    nFree := (b.nFree + slotsPerRun nBytes) % 2 ^ 32
    nRuns := (b.nRuns + 1) % 2 ^ 16 }

/-- The first clear bit below `n`. -/
def firstClear (bitmap : ℕ → Bool) (n : ℕ) : Option ℕ := (List.range n).find? fun i => !bitmap i

/-- Mark the first free slot of run `r` as used and decrement both counters. -/
def takeSlot (H : ℕ → ArenaRun) (b : ArenaBin) (r nBytes : ℕ) :
    Option ℕ × (ℕ → ArenaRun) × ArenaBin :=
  let slot := firstClear (H r).bitmap (slotsPerRun nBytes)
  let bitmap := match slot with
    | none => (H r).bitmap
    | some i => Function.update (H r).bitmap i true
  (slot,
    Function.update H r { H r with bitmap := bitmap, nFree := ((H r).nFree + 2 ^ 16 - 1) % 2 ^ 16 },
    { b with nFree := (b.nFree + 2 ^ 32 - 1) % 2 ^ 32 })

/-- Mark slot `i` of run `r` as free; a run that was full and is not the current one is linked back
into the bin's list. -/
def releaseSlot (H : ℕ → ArenaRun) (b : ArenaBin) (r i : ℕ) : (ℕ → ArenaRun) × ArenaBin :=
  let run := { H r with
    bitmap := Function.update (H r).bitmap i false
    nFree := ((H r).nFree + 1) % 2 ^ 16 }
  let bin := { b with nFree := (b.nFree + 1) % 2 ^ 32 }
  if some r ≠ b.currentRun ∧ run.nFree = 1 then
    (Function.update H r { run with next := b.runs }, { bin with runs := some r })
  else
    (Function.update H r run, bin)

/-! ## Allocation -/

/-- Round up to a multiple of `unit`, as `arena_allocate` does by mask and remainder. -/
def roundUp (n unit : ℕ) : ℕ := n / unit * unit + (if n % unit ≠ 0 then unit else 0)

/-- The part of `arena_allocate` that makes sure the bin has a current run with a free slot: create a
run if the bin counts no free slot, select one from its list if the current run is full. -/
def arenaSelectRun (a b nBytes : ℕ) : Prog ℕ := do
  let w ← get
  if (w.bin (a, b)).nFree = 0 then
    let run ← arenaCreateRun a b nBytes
    modify fun w => w.setBin (a, b) (addRun (w.bin (a, b)) run nBytes)
    pure run
  else
    match selectRun w.vheaders (w.bin (a, b)) with
    | none => throw .fault
    | some (run, bin) =>
      modify fun w => w.setBin (a, b) bin
      pure run

/-- `arena_allocate`; `none` is a null result. -/
def arenaAllocate (a nBytes : ℕ) : Prog (Option ℕ) := do
  assertThat (nBytes ≤ sclassLargeMax)
  if nBytes ≤ sclassSmallMax then
    let nBytes := roundUp nBytes 64
    if nBytes = 0 then
      -- the bin index wraps around
      throw .fault
    else
      let ab := (a, nBytes / 64 - 1)
      let run ← arenaSelectRun a ab.2 nBytes
      let w ← get
      let (slot, vheaders, b) := takeSlot w.vheaders (w.bin ab) run nBytes
      modify fun w => { w with vheaders := vheaders }.setBin ab b
      pure (slot.map fun i => (w.vheaders run).nvmRun + headerSize + nBytes * i)
  else
    let nBytes := roundUp nBytes blockSize
    let nvmBlock ← arenaCreateBlock a (nBytes / blockSize)
    pure (some (nvmBlock + headerSize))

/-! ## Links -/

/-- A link pointer (as an offset) and its target (as an absolute address, `0` for NULL). -/
structure Link where
  ptr : ℕ
  target : ℕ
deriving DecidableEq, Repr

/-- `__NVM_ABS_TO_REL_WITH_NULL` -/
def absToRelWithNull (nvmStart p : ℕ) : ℕ := if p = 0 then 0 else (p + 2 ^ 64 - nvmStart) % 2 ^ 64

/-- `__NVM_REL_TO_ABS_WITH_NULL` -/
def relToAbsWithNull (nvmStart p : ℕ) : ℕ := if p = 0 then 0 else (nvmStart + p) % 2 ^ 64

/-- Record a link in entry `k` of the `on` array of the header at `h`. -/
def recordLink (h on k : ℕ) (l : Link) : Prog Unit := do
  let w ← get
  storeField h (onPtrF on k) l.ptr
  storeField h (onValueF on k) (absToRelWithNull w.nvmStart l.target)

/-- Write a link word.  `PERSIST (*link_ptr)` is given the word's new contents. -/
def writeLink (l : Link) : Prog Unit := do
  let w ← get
  storeAt l.ptr 8 (absToRelWithNull w.nvmStart l.target)
  persistAbs (absToRelWithNull w.nvmStart l.target)

/-- The link part of the six activation and free protocols: record the links in the header, move the
header to the committed state `st`, write the link words.  Without a first link the second one is not
looked at. -/
def linkProtocol (h on st : ℕ) (l1 l2 : Option Link) : Prog Unit :=
  match l1 with
  | none => pure ()
  | some l1 => do
    recordLink h on 0 l1
    match l2 with
    | none => pure ()
    | some l2 => recordLink h on 1 l2
    storeField h stateF st
    writeLink l1
    match l2 with
    | none => pure ()
    | some l2 => writeLink l2

/-- The protocol that moves a block or huge header to its new state: commit to the links in state
`committed`, then move to `final` and clean up.  The activation and free paths of large and huge objects
differ only in the two states. -/
def commitHeader (h committed final : ℕ) (l1 l2 : Option Link) : Prog Unit := do
  linkProtocol h blockOn committed l1 l2
  storeField h stateF final
  memset0 (h + blockOn) 32
  persist h

/-! ## Run headers -/

/-- `nvm_run->bitmap[i/8] |= (1 << (i%8))` -/
def setNvmBit (h i : ℕ) : Prog Unit := do
  let b ← loadField h (bitmapF (i / 8))
  storeField h (bitmapF (i / 8)) (b ||| 1 <<< (i % 8))

/-- `nvm_run->bitmap[i/8] &= ~(1 << (i%8))` -/
def clearNvmBit (h i : ℕ) : Prog Unit := do
  let b ← loadField h (bitmapF (i / 8))
  storeField h (bitmapF (i / 8)) (b &&& (255 ^^^ 1 <<< (i % 8)))

/-- The compare-and-swap spin on the state of a run, in a single thread: nobody else can release it. -/
def acquireRun (h st : ℕ) : Prog Unit := do
  let old ← loadField h stateF
  if old = usageRun + stateInitialized then
    storeField h stateF st
  else
    throw .diverges

/-- The protocol on a run whose state was acquired: note the slot, commit to the links in state
`committed`, change the bitmap with `mark`, release the state and clean up.  Activation and free of small
objects differ in the committed state and in the change. -/
def commitRun (h committed runIdx : ℕ) (mark : Prog Unit) (l1 l2 : Option Link) : Prog Unit := do
  storeField h bitIdxF runIdx
  linkProtocol h runOn committed l1 l2
  mark
  storeField h stateF (usageRun + stateInitialized)
  -- cleanup
  storeField h bitIdxF bitIdxNone
  memset0 (h + runOn) 32
  persist h

/-! ## Deallocation -/

/-- The part of `arena_free` that makes sure a run has a VHeader of this process. -/
def ensureVheader (h : ℕ) : Prog ℕ := do
  let run ← loadField h vdataF
  let version ← loadField h versionF
  let w ← get
  if version < w.currentVersion then
    let tmpRun ← arenaCreateRunHeader h
    let vdata ← loadField h vdataF
    if run = vdata then
      storeField h vdataF tmpRun
      storeField h versionF w.currentVersion
    else
      pure ()
    loadField h vdataF
  else
    pure run

/-- The branch of `arena_free` for a large element. -/
def arenaFreeLarge (h : ℕ) (l1 l2 : Option Link) : Prog Unit := do
  let block ← arenaCreateBlockHeader h
  commitHeader h (usageBlock + stateFreeing) (usageFree + stateInitialized) l1 l2
  -- add the block back into the arena's free list
  addFreePagerun block.arena block

/-- The branch of `arena_free` for a small element. -/
def arenaFreeSmall (ptr h : ℕ) (l1 l2 : Option Link) : Prog Unit := do
  acquireRun h (usageRun + statePrefree)
  let run ← ensureVheader h
  let w ← get
  if (w.vheaders run).elemSize = 0 then
    throw .fault
  else
    let runIdx := (ptr - (h + headerSize)) / (w.vheaders run).elemSize
    commitRun h (usageRun + stateFreeing) runIdx (clearNvmBit h runIdx) l1 l2
    -- mark slot as free in volatile memory
    modify fun w =>
      let ab := (w.vheaders run).bin
      let (vheaders, b) := releaseSlot w.vheaders (w.bin ab) run runIdx
      { w with vheaders := vheaders }.setBin ab b

/-- `arena_free` -/
def arenaFree (ptr : ℕ) (l1 l2 : Option Link) : Prog Unit := do
  -- the nvm run/block metadata is located at the beginning of the page
  let h := ptr / blockSize * blockSize
  let st ← loadField h stateF
  if getUsage st = usageBlock then
    arenaFreeLarge h l1 l2
  else if getUsage st = usageRun then
    arenaFreeSmall ptr h l1 l2
  else
    -- false free
    pure ()

end NvmMalloc
