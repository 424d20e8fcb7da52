import NvmMalloc.Arena

/-!
# The object table

Reference: `src/object_table.c`, `src/util.c` (`identify_usage`), and the chained hash map of
`ulib-svn/src/base/hash_chain_prot.h`, of which the object table uses 128 buckets.

Strings are lists of non-zero bytes.  A key in the hash map is the C string that starts at the `id`
field of its volatile entry: `ot_insert` terminates that field, `ot_recover` copies 54 bytes into
memory that `malloc` returned with arbitrary contents.
-/

namespace NvmMalloc

open Memory CrashM

/-- The value of a `char` as it is added to the hash: sign-extended to 64 bits. -/
def charValue (c : UInt8) : ℕ := if c.toNat < 128 then c.toNat else c.toNat + 2 ^ 64 - 256

/-- `hash_fn` -/
def hashFn (s : List UInt8) : ℕ := s.foldl (fun hash c => (hash * 33 + charValue c) % 2 ^ 64) 5381

/-- The bucket of a key: `chainhash_init (ot, 100)` rounds the mask up to 127. -/
def bucketOf (s : List UInt8) : ℕ := hashFn s % 128

/-- `equal_fn`: `strncmp` over `MAX_ID_LENGTH` characters. -/
def equalFn (a b : List UInt8) : Bool := a.take maxIdLength == b.take maxIdLength

/-- `OT_OK`, `OT_FAIL`, `OT_DUPLICATE` -/
inductive OtResult where
  | ok
  | fail
  | duplicate
deriving DecidableEq, Repr

/-- `SLOT_BUFFER_SIZE` -/
@[simp] def slotBufferSize : ℕ := 200

/-- Replace the volatile object table. -/
def World.setOt (w : World) (ot : ObjectTable) : World := { w with ot := ot }

/-- The loop of `ot_init` over the chunks of the object table. -/
def otInitLoop : ℕ → ℕ → Prog Unit
  | 0, _ => throw .diverges
  | fuel + 1, chunkHdr => do
    modify fun w => w.setOt { w.ot with totalSlotsAvailable := w.ot.totalSlotsAvailable + 63 }
    let next ← loadField chunkHdr nextOtChunkF
    if next = 0 then
      pure ()
    else
      otInitLoop fuel next

/-- `ot_init` -/
def otInit (fuel : ℕ) : Prog Unit := do
  modify fun w => w.setOt { w.ot with hashmap := fun _ => [] }
  otInitLoop fuel 0

/-- `ot_get` -/
def otGet (ot : ObjectTable) (id : List UInt8) : Option OtEntry :=
  (ot.hashmap (bucketOf id)).find? fun e => equalFn id e.id

/-- `HASHMAP_INSERT`: `chainhash_set` puts the entry in front of its bucket, without a look at the
entries already there. -/
def hashmapInsert (ot : ObjectTable) (e : OtEntry) : ObjectTable :=
  { ot with
    hashmap := Function.update ot.hashmap (bucketOf e.id) (e :: ot.hashmap (bucketOf e.id)) }

/-- The NVM entry of a slot. -/
def otSlotAddr (slot : ℕ) : ℕ := slot / 63 * chunkSize + headerSize + slot % 63 * headerSize

/-- The choice of a slot in `ot_insert`: freed slots first.  `none` is `OT_FAIL`; a read past the end
of the slot buffer is undefined in C. -/
def otTakeSlot : Prog (Option ℕ) := do
  let w ← get
  if w.ot.slotBufferNFree ≤ 0 then
    if w.ot.nextNvmSlot ≥ w.ot.totalSlotsAvailable then
      pure none
    else
      modify fun w => w.setOt { w.ot with nextNvmSlot := w.ot.nextNvmSlot + 1 }
      pure (some w.ot.nextNvmSlot)
  else if w.ot.slotBufferHeadIdx < slotBufferSize then
    modify fun w => w.setOt { w.ot with
      slotBufferNFree := w.ot.slotBufferNFree - 1
      slotBufferHeadIdx := w.ot.slotBufferHeadIdx + 1 }
    pure (some (w.ot.slotBuffer w.ot.slotBufferHeadIdx))
  else
    throw .fault

/-- `ot_insert` -/
def otInsert (id : List UInt8) (dataPtr : ℕ) : Prog OtResult := do
  let w ← get
  if (otGet w.ot id).isSome then
    pure .duplicate
  else
    match ← otTakeSlot with
    | none => pure .fail
    | some slot =>
      let entry : OtEntry := ⟨id.take maxIdLength, slot, dataPtr, otSlotAddr slot⟩
      modify fun w => w.setOt (hashmapInsert w.ot entry)
      pure .ok

/-- `ot_remove`; the compare-and-swap on `slot_buffer_tail_idx` spins forever unless it finds the
index before the freed one. -/
def otRemove (id : List UInt8) : Prog OtResult := do
  let w ← get
  match otGet w.ot id with
  | none => pure .fail
  | some entry =>
    let b := bucketOf id
    let freeSlotIdx := w.ot.slotBufferNextIdx % slotBufferSize
    modify fun w => w.setOt { w.ot with
      hashmap := Function.update w.ot.hashmap b
        ((w.ot.hashmap b).eraseP fun e => equalFn id e.id)
      slotBufferNextIdx := w.ot.slotBufferNextIdx + 1
      slotBuffer := Function.update w.ot.slotBuffer freeSlotIdx entry.slot }
    if w.ot.slotBufferTailIdx = (freeSlotIdx : ℤ) - 1 then
      modify fun w => w.setOt { w.ot with
        slotBufferTailIdx := freeSlotIdx
        slotBufferNFree := w.ot.slotBufferNFree + 1 }
      pure .ok
    else
      throw .diverges

/-! ## Recovery -/

/-- What `identify_usage` takes a pointer for. -/
inductive Usage where
  | huge
  | block
  | run
deriving DecidableEq, Repr

/-- `identify_usage`; `none` is the error value. -/
def identifyUsage (m : Mem) (ptr : ℕ) : Option Usage :=
  if ptr % chunkSize = headerSize then
    some .huge
  else if ptr % blockSize > headerSize then
    some .run
  else if ptr % blockSize = headerSize then
    let st := field m (ptr - headerSize) stateF
    if getUsage st = usageBlock ∨ getUsage st = usageFree then some .block else some .run
  else
    none

/-- Whether a header state lets `ot_recover` keep an entry of a large or huge region.  The state is
compared as a whole byte, usage bits included. -/
def keepsBlock (m : Mem) (h : ℕ) : Bool :=
  let st := field m h stateF
  st = statePrefree ∨ st = stateActivating ∨ st = stateInitialized

/-- The same decision for slot `bitIdx` of a run. -/
def keepsSlot (m : Mem) (h bitIdx : ℕ) : Bool :=
  let st := field m h stateF
  (st = statePrefree ∧ bitmapBit m h bitIdx) ∨
    (st = stateActivating ∧ field m h bitIdxF = bitIdx) ∨
    (st = stateInitialized ∧ bitmapBit m h bitIdx)

/-- The look of `ot_recover` at the region of an entry in state INITIALIZING. -/
def otKeep (ptr : ℕ) : Prog Bool := do
  let w ← get
  match identifyUsage w.nvm.mem ptr with
  | none => pure false
  | some .huge => pure (keepsBlock w.nvm.mem (ptr - headerSize))
  | some .block => pure (keepsBlock w.nvm.mem (ptr - headerSize))
  | some .run =>
    let h := ptr / blockSize * blockSize
    if field w.nvm.mem h nBytesF = 0 then
      throw .fault
    else
      pure (keepsSlot w.nvm.mem h ((ptr - (h + headerSize)) / field w.nvm.mem h nBytesF % 2 ^ 16))

/-- The bytes of the `id` field of the NVM entry at `e` that `ot_recover` copies. -/
def nvmIdBytes (m : Mem) (e : ℕ) : List UInt8 :=
  (List.range maxIdLength).map fun k => m (e + 1 + k)

/-- The C string that starts at the copied bytes; `junk` is what follows them in memory. -/
def recoveredKey (bytes junk : List UInt8) : List UInt8 :=
  if (0 : UInt8) ∈ bytes then bytes.takeWhile (· ≠ 0) else bytes ++ junk

/-- The inner loop of `ot_recover` that collects the unused slots `n, …, n + k - 1`. -/
def otCollectGaps : ℕ → ℕ → Prog Unit
  | _, 0 => pure ()
  | n, k + 1 => do
    let w ← get
    if w.ot.slotBufferNextIdx < slotBufferSize then
      modify fun w => w.setOt { w.ot with
        slotBuffer := Function.update w.ot.slotBuffer w.ot.slotBufferNextIdx n
        slotBufferNextIdx := w.ot.slotBufferNextIdx + 1
        slotBufferTailIdx := w.ot.slotBufferTailIdx + 1
        slotBufferNFree := w.ot.slotBufferNFree + 1 }
      otCollectGaps (n + 1) k
    else
      throw .fault

/-- The decision of `ot_recover` about one NVM entry: `keep`, after the writes it makes to it. -/
def otRecoverEntry (e : ℕ) : Prog Bool := do
  let st ← loadField e stateF
  if st = stateInitialized then
    pure true
  else if st = stateInitializing then
    let ptr ← loadField e otPtrF
    let keep ← otKeep ptr
    if keep then
      storeField e stateF stateInitialized
      persist e
      pure true
    else
      memset0 e headerSize
      persist e
      pure false
  else
    pure false

/-- One slot of `ot_recover`: the new `last_used_slot`. -/
def otRecoverSlot (junk : ℕ → List UInt8) (e currentSlot lastUsedSlot : ℕ) : Prog ℕ := do
  let keep ← otRecoverEntry e
  if keep then
    let w ← get
    let entry : OtEntry :=
      ⟨recoveredKey (nvmIdBytes w.nvm.mem e) (junk currentSlot), currentSlot,
        field w.nvm.mem e otPtrF, e⟩
    -- add the unused slots we found since the last valid entry to the slot buffer
    otCollectGaps (lastUsedSlot + 1) (currentSlot - (lastUsedSlot + 1))
    modify fun w => w.setOt (hashmapInsert w.ot entry)
    pure currentSlot
  else
    pure lastUsedSlot

/-- The slots of one chunk, from index `i` on; `k` of them are left. -/
def otRecoverChunk (junk : ℕ → List UInt8) (chunkHdr : ℕ) : ℕ → ℕ → ℕ → ℕ → Prog ℕ
  | _, 0, _, lastUsedSlot => pure lastUsedSlot
  | i, k + 1, currentSlot, lastUsedSlot => do
    let last ← otRecoverSlot junk (chunkHdr + headerSize + i * headerSize) currentSlot lastUsedSlot
    otRecoverChunk junk chunkHdr (i + 1) k (currentSlot + 1) last

/-- The chunk loop of `ot_recover`. -/
def otRecoverLoop (junk : ℕ → List UInt8) : ℕ → ℕ → ℕ → ℕ → Prog ℕ
  | 0, _, _, _ => throw .diverges
  | fuel + 1, chunkHdr, currentSlot, lastUsedSlot => do
    let last ← otRecoverChunk junk chunkHdr 0 63 currentSlot lastUsedSlot
    let next ← loadField chunkHdr nextOtChunkF
    if next ≠ 0 then
      otRecoverLoop junk fuel next (currentSlot + 63) last
    else
      pure last

/-- `ot_recover` -/
def otRecover (junk : ℕ → List UInt8) (fuel : ℕ) : Prog Unit := do
  let last ← otRecoverLoop junk fuel 0 0 0
  modify fun w => w.setOt { w.ot with nextNvmSlot := last + 1 }

end NvmMalloc
