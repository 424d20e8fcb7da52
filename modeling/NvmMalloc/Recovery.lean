import NvmMalloc.Malloc

/-!
# Restart

Reference: `src/nvm_malloc.c` (`nvm_initialize`, `nvm_initialize_recovered`, `nvm_recovery_thread`),
`src/chunk.c` (`recover_chunks`).

The recovery thread is run to its end before the object table is recovered: neither reads what the
other one writes.  Its two loops take the number of iterations they may make as an argument and
diverge when it runs out.
-/

namespace NvmMalloc

open Memory CrashM

/-! ## The log loop -/

/-- Store one recorded link; `on[k].value` is turned into an absolute address. -/
def replayLink (h on k : ℕ) : Prog Unit := do
  let ptr ← loadField h (onPtrF on k)
  let value ← loadField h (onValueF on k)
  let w ← get
  storeAt ptr 8 (relToAbsWithNull w.nvmStart value)
  persist ptr

/-- Replay the links recorded in the header at `h`. -/
def replayLinks (h on : ℕ) : Prog Unit := do
  let ptr0 ← loadField h (onPtrF on 0)
  if ptr0 = 0 then
    pure ()
  else
    replayLink h on 0
    let ptr1 ← loadField h (onPtrF on 1)
    if ptr1 = 0 then
      pure ()
    else
      replayLink h on 1

/-- Leave a block or huge header in state `final`. -/
def settleHeader (h final : ℕ) : Prog Unit := do
  memset0 (h + blockOn) 32
  storeField h stateF final
  persist h

/-- The branch of the log loop for a large or huge region: `usage` is that of an allocated region and
`release` hands the region to its free pool. -/
def recoverHeader (h usage : ℕ) (release : Prog Unit) : Prog Unit := do
  let st ← loadField h stateF
  if getState st = statePrefree then
    -- before committed to freeing, rollback
    settleHeader h (usage + stateInitialized)
  else if getState st = stateFreeing then
    -- committed to freeing, replay
    replayLinks h blockOn
    settleHeader h (usageFree + stateInitialized)
    release
  else if getState st = statePreactivate then
    -- before committed to activation, rollback
    settleHeader h (usageFree + stateInitialized)
    release
  else if getState st = stateActivating then
    -- committed to activation, replay
    replayLinks h blockOn
    settleHeader h (usage + stateInitialized)
  else
    assertThat (getState st = stateInitialized)

/-- The USAGE_HUGE branch of the log loop. -/
def recoverHuge (h : ℕ) : Prog Unit :=
  recoverHeader h usageHuge do
    let nChunks ← loadField h nChunksF
    addFreeChunk ⟨h, nChunks⟩

/-- The USAGE_BLOCK branch of the log loop. -/
def recoverBlock (h : ℕ) : Prog Unit :=
  recoverHeader h usageBlock do
    let block ← arenaCreateBlockHeader h
    addFreePagerun block.arena block

/-- The bit index a replay uses; one outside the bitmap is undefined in C. -/
def replayIdx (h : ℕ) : Prog ℕ := do
  let i ← loadField h bitIdxF
  if i < 64 then pure i else throw .fault

/-- The redo of the USAGE_RUN branch of the log loop. -/
def replayRun (h : ℕ) : Prog Unit := do
  let st ← loadField h stateF
  if getState st = statePrefree then
    pure ()
  else if getState st = stateFreeing then
    replayLinks h runOn
    let i ← replayIdx h
    clearNvmBit h i
  else if getState st = statePreactivate then
    pure ()
  else if getState st = stateActivating then
    replayLinks h runOn
    let i ← replayIdx h
    setNvmBit h i
  else
    assertThat (getState st = stateInitialized)

/-- `run->next = run->bin->runs; run->bin->runs = run`; the counters of the bin are left alone. -/
def pushRun (run : ℕ) : Prog Unit :=
  modify fun w =>
    let ab := (w.vheaders run).bin
    { w with
      vheaders := Function.update w.vheaders run
        { w.vheaders run with next := (w.bin ab).runs } }.setBin ab
      { w.bin ab with runs := some run }

/-- The USAGE_RUN branch of the log loop. -/
def recoverRun (h : ℕ) : Prog Unit := do
  replayRun h
  -- create the VHeader and reset fields either way
  let run ← arenaCreateRunHeader h
  pushRun run
  memset0 (h + runOn) 32
  let w ← get
  storeField h versionF w.currentVersion
  storeField h vdataF run
  storeField h bitIdxF bitIdxNone
  storeField h stateF (usageRun + stateInitialized)
  persist h

/-- One iteration of the log loop. -/
def recoverLogEntry (i : ℕ) : Prog Unit := do
  let w ← get
  if w.nvm.log i = 0 then
    pure ()
  else
    let ptr := w.nvm.log i
    match identifyUsage w.nvm.mem ptr with
    | some .huge => recoverHuge (ptr - headerSize)
    | some .block => recoverBlock (ptr / blockSize * blockSize)
    | some .run => recoverRun (ptr / blockSize * blockSize)
    | none => pure ()
    storeLog i 0

/-! ## The recovery thread -/

/-- The part of the page loop for a run header: create the VHeader if the run has none of this
process. -/
def scanRun (h : ℕ) : Prog Unit := do
  let tmpRun ← loadField h vdataF
  let version ← loadField h versionF
  let w ← get
  if version < w.currentVersion then
    let run ← arenaCreateRunHeader h
    let vdata ← loadField h vdataF
    if tmpRun = vdata then
      storeField h vdataF run
      storeField h versionF w.currentVersion
      persist h
    else
      pure ()
  else
    pure ()

/-- The page loop of `nvm_recovery_thread` in the arena chunk at `c`, from page `j` on. -/
def scanPages (c : ℕ) : ℕ → ℕ → Prog Unit
  | 0, _ => throw .diverges
  | fuel + 1, j =>
    if j < chunkSize / blockSize then do
      let h := c + j * blockSize
      let st ← loadField h stateF
      if getUsage st = usageFree then
        let block ← arenaCreateBlockHeader h
        addFreePagerun block.arena block
        let nPages ← loadField h nPagesF
        scanPages c fuel (j + nPages)
      else if getUsage st = usageRun then
        scanRun h
        scanPages c fuel (j + 1)
      else
        -- block in use, skip
        let nPages ← loadField h nPagesF
        scanPages c fuel (j + nPages)
    else
      pure ()

/-- The chunk loop of `nvm_recovery_thread`, from chunk `i` on. -/
def scanChunks (pageFuel nChunks : ℕ) : ℕ → ℕ → Prog Unit
  | 0, _ => throw .diverges
  | fuel + 1, i =>
    if i < nChunks then do
      let st ← loadField (i * chunkSize) stateF
      if getUsage st = usageArena then
        scanPages (i * chunkSize) pageFuel 1
        scanChunks pageFuel nChunks fuel (i + 1)
      else
        -- must be a huge allocation then, so skip it
        let n ← loadField (i * chunkSize) nChunksF
        scanChunks pageFuel nChunks fuel (i + n)
    else
      pure ()

/-- `nvm_recovery_thread` -/
def nvmRecoveryThread (fuel nChunks : ℕ) : Prog Unit := scanChunks fuel nChunks fuel 0

/-! ## Start of a process -/

/-- `nvm_initialize_recovered`, with the recovery thread run to its end. -/
def nvmInitializeRecovered (fuel nChunksRecovered : ℕ) : Prog Unit := do
  forRange (fun i => arenaInit i none) 0 initialArenas
  forRange recoverLogEntry 0 maxLogEntries
  nvmRecoveryThread fuel nChunksRecovered

/-- The recovery branch of `nvm_initialize` up to the object table: take the version and run
`nvm_initialize_recovered`. -/
def recoverHeap (fuel : ℕ) : Prog Unit := do
  let w ← get
  modify fun w => { w with currentVersion := w.nvm.version }
  storeVersion ((w.nvm.version + 1) % 2 ^ 64)
  persistMeta
  nvmInitializeRecovered fuel w.nvm.nextChunk

/-- `nvm_initialize`, from a state in which `nvm_start` is mapped.  `junk` is what `malloc` leaves
behind the identifiers that `ot_recover` copies. -/
def nvmInitialize (junk : ℕ → List UInt8) (fuel : ℕ) (recoverIfPossible : Bool) : Prog Unit := do
  let w ← get
  if !recoverIfPossible ∨ w.nvm.nextChunk = 0 then
    nvmInitializeEmpty
    otInit fuel
  else
    recoverHeap fuel
    otInit fuel
    otRecover junk fuel

/-- What a new process finds: where NVM is mapped, and what `malloc` hands out. -/
structure Process where
  nvmStart : ℕ
  malloced : ℕ → ArenaRun
  junk : ℕ → List UInt8

/-- A process over the image `nvm`, before `nvm_initialize`. -/
def Process.start (P : Process) (nvm : Nvm) : World where
  nvm := nvm
  nvmStart := P.nvmStart
  currentVersion := 0
  nextLogEntry := 0
  freeChunks := .nil
  arenas := fun _ => ⟨fun _ => ⟨none, 0, 0, none⟩, .nil⟩
  vheaders := P.malloced
  nVheaders := 0
  ot := ⟨fun _ => 0, 0, 0, -1, 0, fun _ => [], 0, 0⟩

end NvmMalloc
