import NvmMalloc.ObjectTable

/-!
# The public operations

Reference: `src/nvm_malloc.c`, `src/util.c`.

The arena that serves a small or large request is chosen by the calling thread's entry in `tidmap`;
here it is an argument of the call.
-/

namespace NvmMalloc

open Memory CrashM

/-! ## Reservation -/

/-- `tree_upper_bound` of `nvm_malloc.c` -/
def chunkUpperBound (reqChunks : ℕ) (t : SearchTree Huge) : Option Huge :=
  t.treeUpperBound Huge.nChunks reqChunks none

/-- `tree_add` with `chunk_node_compare` on `free_chunks`. -/
def addFreeChunk (x : Huge) : Prog Unit :=
  modify fun w => { w with freeChunks := w.freeChunks.treeAdd Huge.nChunks x }

/-- `nvm_reserve_huge` -/
def nvmReserveHuge (nChunks : ℕ) : Prog ℕ := do
  let nvmHuge ← activateMoreChunks nChunks
  storeField nvmHuge stateF (usageHuge + stateInitializing)
  storeField nvmHuge nChunksF nChunks
  memset0 (nvmHuge + blockOn) 32
  persist nvmHuge
  pure nvmHuge

/-- The number of chunks of a huge request, in 64-bit arithmetic. -/
def chunksFor (nBytes : ℕ) : ℕ := (nBytes + headerSize + chunkSize) % 2 ^ 64 / chunkSize

/-- The huge branch of `nvm_reserve` when it got too many chunks: split and insert the rest.  The `on`
array of the new header keeps its old contents. -/
def splitChunks (huge : Huge) (nChunks : ℕ) : Prog ℕ := do
  let nvmHuge := huge.nvmChunk + (huge.nChunks - nChunks) * chunkSize
  storeField nvmHuge stateF (usageFree + stateInitialized)
  storeField nvmHuge nChunksF nChunks
  persist nvmHuge
  let old ← loadField huge.nvmChunk nChunksF
  storeField huge.nvmChunk nChunksF (old + 2 ^ 32 - nChunks)
  addFreeChunk { huge with nChunks := huge.nChunks - nChunks }
  pure nvmHuge

/-- The huge branch of `nvm_reserve`. -/
def nvmReserveChunks (nChunks : ℕ) : Prog ℕ := do
  let w ← get
  match chunkUpperBound (nChunks % 2 ^ 32) w.freeChunks with
  | none => nvmReserveHuge nChunks
  | some huge =>
    modify fun w => { w with freeChunks := w.freeChunks.treeDel huge }
    if huge.nChunks > nChunks then
      splitChunks huge nChunks
    else
      pure huge.nvmChunk

/-- `nvm_reserve` -/
def nvmReserve (a nBytes : ℕ) : Prog (Option ℕ) :=
  if nBytes ≤ sclassLargeMax then
    arenaAllocate a nBytes
  else do
    let nvmHuge ← nvmReserveChunks (chunksFor nBytes)
    pure (some (nvmHuge + headerSize))

/-! ## Activation -/

/-- `log_activate` -/
def logActivate (ptr : ℕ) : Prog Unit := do
  let w ← get
  modify fun w => { w with nextLogEntry := (w.nextLogEntry + 1) % 2 ^ 64 }
  storeLog (w.nextLogEntry % maxLogEntries) ptr
  persistMeta

/-- The small branch of `nvm_activate`. -/
def nvmActivateSmall (ptr h : ℕ) (l1 l2 : Option Link) : Prog Unit := do
  let nBytes ← loadField h nBytesF
  if nBytes = 0 then
    throw .fault
  else
    let runIdx := (ptr - (h + headerSize)) / nBytes % 2 ^ 16
    acquireRun h (usageRun + statePreactivate)
    commitRun h (usageRun + stateActivating) runIdx (setNvmBit h runIdx) l1 l2

/-- `nvm_activate` -/
def nvmActivate (ptr : ℕ) (l1 l2 : Option Link) : Prog Unit := do
  logActivate ptr
  if ptr % chunkSize = headerSize then
    -- ptr is 64 bytes into a chunk --> huge block
    commitHeader (ptr - headerSize) (usageHuge + stateActivating) (usageHuge + stateInitialized) l1 l2
  else
    let h := ptr / blockSize * blockSize
    let st ← loadField h stateF
    if getUsage st = usageFree then
      commitHeader h (usageBlock + stateActivating) (usageBlock + stateInitialized) l1 l2
    else
      nvmActivateSmall ptr h l1 l2

/-! ## Deallocation -/

/-- `nvm_free` -/
def nvmFree (ptr : ℕ) (l1 l2 : Option Link) : Prog Unit :=
  if ptr % chunkSize = headerSize then do
    -- ptr is 64 bytes into a chunk --> huge block
    let h := ptr - headerSize
    let nChunks ← loadField h nChunksF
    commitHeader h (usageHuge + stateFreeing) (usageFree + stateInitialized) l1 l2
    addFreeChunk ⟨h, nChunks⟩
  else
    arenaFree ptr l1 l2

/-! ## Named objects -/

/-- `nvm_get_id` -/
def nvmGetId (w : World) (id : List UInt8) : Option ℕ := (otGet w.ot id).map OtEntry.dataPtr

/-- `nvm_reserve_id`; the result of `ot_insert` is not looked at. -/
def nvmReserveId (id : List UInt8) (a nBytes : ℕ) : Prog (Option ℕ) := do
  let w ← get
  if (otGet w.ot id).isSome then
    pure none
  else
    match ← nvmReserve a nBytes with
    | none => pure none
    | some mem =>
      let _ ← otInsert id mem
      pure (some mem)

/-- `strncpy (dst, s, n)` at byte `k` on: copy, then pad with NUL. -/
def strncpy (dst : ℕ) (s : List UInt8) (n : ℕ) : Prog Unit :=
  forRange (fun k => storeAt (dst + k) 1 ((s.getD k 0).toNat)) 0 n

/-- Step 1 of `nvm_activate_id`: persist the identifier in INITIALIZING state. -/
def persistId (e : ℕ) (id : List UInt8) (dataPtr : ℕ) : Prog Unit := do
  storeField e stateF stateNone
  strncpy (e + 1) id maxIdLength
  storeAt (e + 1 + 54) 1 0
  storeField e otPtrF dataPtr
  storeField e stateF stateInitializing
  persist e

/-- `nvm_activate_id` -/
def nvmActivateId (id : List UInt8) : Prog Unit := do
  let w ← get
  match otGet w.ot id with
  | none => pure ()
  | some otEntry =>
    -- step 1 - persist id in INITIALIZING state
    persistId otEntry.nvmEntry id otEntry.dataPtr
    -- step 2 - activate data normally
    nvmActivate otEntry.dataPtr none none
    -- step 3 - activate NVM object table entry
    storeField otEntry.nvmEntry stateF stateInitialized
    persist otEntry.nvmEntry

/-- `nvm_free_id` -/
def nvmFreeId (id : List UInt8) : Prog Unit := do
  let w ← get
  match otGet w.ot id with
  | none => pure ()
  | some otEntry =>
    storeField otEntry.nvmEntry stateF stateFreeing
    persist otEntry.nvmEntry
    nvmFree otEntry.dataPtr none none
    let _ ← otRemove id
    pure ()

/-! ## Fresh start -/

/-- `arena_init`; `firstChunk` is the chunk of the initial block, if one is to be created. -/
def arenaInit (a : ℕ) (firstChunk : Option ℕ) : Prog Unit := do
  modify fun w => w.setArena a ⟨fun _ => ⟨none, 0, 0, none⟩, .nil⟩
  match firstChunk with
  | none => pure ()
  | some c =>
    let nvmBlock := c + blockSize
    addFreePagerun a ⟨nvmBlock, chunkSize / blockSize - 1, a⟩
    storeField nvmBlock stateF (usageFree + stateInitialized)
    storeField nvmBlock nPagesF (chunkSize / blockSize - 1)
    storeField nvmBlock blockArenaIdF a
    persist nvmBlock

/-- The initial chunk setup of `nvm_initialize_empty`.  The `memset` starts at byte 5 of the block
header, inside `n_pages`. -/
def initialChunkSetup (i : ℕ) : Prog Unit := do
  let c := i * chunkSize
  storeField c stateF (stateInitializing + usageArena)
  storeField c nextOtChunkF (if i < initialArenas - 1 then (i + 1) * chunkSize else 0)
  memset0 (c + headerSize) 4032
  persistRange c blockSize
  let b := c + blockSize
  storeField b stateF (stateInitializing + usageFree)
  storeField b nPagesF ((chunkSize - blockSize - headerSize) / blockSize)
  memset0 (b + 5) 59
  persist b

/-- A backing file without chunks and a meta file of zeros. -/
def emptyNvm : Nvm := ⟨fun _ => 0, 0, 0, fun _ => 0⟩

/-- `initialize_chunks`: truncate the backing file (its first megabyte is less than a chunk) and the
meta file. -/
def initializeChunks : Prog Unit :=
  commit (fun w => .storeMeta w.nvm) fun w => { w with nvm := emptyNvm }

/-- A store to the version counter. -/
def storeVersion (v : ℕ) : Prog Unit :=
  commit (fun w => .storeMeta w.nvm) fun w => { w with nvm := { w.nvm with version := v } }

/-- `nvm_initialize_empty` -/
def nvmInitializeEmpty : Prog Unit := do
  initializeChunks
  storeVersion 1
  persistMeta
  modify fun w => { w with currentVersion := 0 }
  let _ ← activateMoreChunks initialArenas
  forRange initialChunkSetup 0 initialArenas
  -- mark the chunks as initialized
  forRange (fun i => do
    storeField (i * chunkSize) stateF (stateInitialized + usageArena)
    persist (i * chunkSize)) 0 initialArenas
  -- create arenas on chunks
  forRange (fun i => arenaInit i (some (i * chunkSize))) 0 initialArenas

end NvmMalloc
