import NvmMalloc.Lib.Memory
import NvmMalloc.Lib.CrashMonad
import NvmMalloc.Lib.SearchTree

/-!
# Constants, header layouts and the state of the allocator

Reference: `src/types.h`, `src/chunk.c`, and the global variables of `src/nvm_malloc.c` and
`src/object_table.c`.

NVM is the byte contents of the backing file, addressed relative to `nvm_start`, together with the
words of the meta file: the version counter and the activation log.  Pointers into NVM are modelled by
their offset from `nvm_start`; `nvm_start` is page-aligned, so masking an address to its page and
masking its offset is the same thing.  Absolute addresses occur only as the *values* of link targets.

The fields that no function reads (the chunk signature and the paddings) are left out.
-/

namespace NvmMalloc

open Memory

/-! ## Limits and sizes -/

/-- `BLOCK_SIZE` -/
@[simp] def blockSize : ℕ := 4096

/-- `CHUNK_SIZE` -/
@[simp] def chunkSize : ℕ := 4 * 1024 * 1024

/-- `MAX_NVM_SPACE` -/
@[simp] def maxNvmSpace : ℕ := 100 * 1024 * 1024 * 1024

/-- `MAX_NVM_CHUNKS` -/
@[simp] def maxNvmChunks : ℕ := maxNvmSpace / chunkSize

/-- `INITIAL_ARENAS` -/
@[simp] def initialArenas : ℕ := 20

/-- `SCLASS_SMALL_MAX` -/
@[simp] def sclassSmallMax : ℕ := blockSize / 2 - 64

/-- `SCLASS_LARGE_MAX` -/
@[simp] def sclassLargeMax : ℕ := chunkSize / 2 - 64

/-- `MAX_ID_LENGTH` -/
@[simp] def maxIdLength : ℕ := 54

/-- `max_log_entries` -/
@[simp] def maxLogEntries : ℕ := 127

/-- The size of a huge, block or run header, and of an object table entry: one cache line. -/
@[simp] def headerSize : ℕ := 64

/-! ## State bytes

The low nibble of a state byte is the state, the high nibble the usage. -/

@[simp] def stateNone : ℕ := 0
@[simp] def stateInitializing : ℕ := 1
@[simp] def stateInitialized : ℕ := 2
@[simp] def statePrefree : ℕ := 4
@[simp] def stateFreeing : ℕ := 5
@[simp] def statePreactivate : ℕ := 6
@[simp] def stateActivating : ℕ := 7

@[simp] def usageFree : ℕ := 1 * 16
@[simp] def usageArena : ℕ := 2 * 16
@[simp] def usageBlock : ℕ := 3 * 16
@[simp] def usageRun : ℕ := 4 * 16
@[simp] def usageHuge : ℕ := 5 * 16

/-- `GET_STATE` -/
@[simp] def getState (b : ℕ) : ℕ := b % 16

/-- `GET_USAGE` -/
@[simp] def getUsage (b : ℕ) : ℕ := b / 16 * 16

/-! ## Header fields -/

/-- A field of a non-volatile struct: its offset and width in bytes. -/
structure NvmField where
  off : ℕ
  width : ℕ

/-- The state byte, common to all headers and to object table entries. -/
def stateF : NvmField := ⟨0, 1⟩

/-- `nvm_chunk_header_s.next_ot_chunk` -/
def nextOtChunkF : NvmField := ⟨56, 8⟩

/-- `nvm_huge_header_s.n_chunks` -/
def nChunksF : NvmField := ⟨4, 4⟩

/-- `nvm_block_header_s.n_pages` -/
def nPagesF : NvmField := ⟨4, 4⟩

/-- `nvm_block_header_s.arena_id` -/
def blockArenaIdF : NvmField := ⟨40, 4⟩

/-- `nvm_run_header_s.n_bytes` -/
def nBytesF : NvmField := ⟨2, 2⟩

/-- `nvm_run_header_s.vdata` -/
def vdataF : NvmField := ⟨8, 8⟩

/-- `nvm_run_header_s.bitmap[k]` -/
def bitmapF (k : ℕ) : NvmField := ⟨48 + k, 1⟩

/-- `nvm_run_header_s.bit_idx`, a signed field; `-1` is stored as `bitIdxNone`. -/
def bitIdxF : NvmField := ⟨56, 2⟩

/-- `nvm_run_header_s.arena_id` -/
def runArenaIdF : NvmField := ⟨58, 2⟩

/-- `nvm_run_header_s.version` -/
def versionF : NvmField := ⟨60, 4⟩

/-- `nvm_object_table_entry_s.ptr` -/
def otPtrF : NvmField := ⟨56, 8⟩

/-- The two's complement of `-1` in `bit_idx`. -/
@[simp] def bitIdxNone : ℕ := 65535

/-- The offset of `on` in block and huge headers. -/
@[simp] def blockOn : ℕ := 8

/-- The offset of `on` in run headers. -/
@[simp] def runOn : ℕ := 16

/-- `on[k].ptr`, for an `on` array at offset `on` of its header. -/
def onPtrF (on k : ℕ) : NvmField := ⟨on + 16 * k, 8⟩

/-- `on[k].value` -/
def onValueF (on k : ℕ) : NvmField := ⟨on + 16 * k + 8, 8⟩

/-- The contents of field `f` of the struct at `h`. -/
def field (m : Mem) (h : ℕ) (f : NvmField) : ℕ := load m (h + f.off) f.width

/-- Bit `i` of the bitmap of the run header at `h`. -/
def bitmapBit (m : Mem) (h i : ℕ) : Bool := (field m h (bitmapF (i / 8))).testBit (i % 8)

/-! ## Volatile structures -/

/-- `arena_block_t`: a free page run, by the offset of its header. -/
structure ArenaBlock where
  nvmBlock : ℕ
  nPages : ℕ
  arena : ℕ
deriving DecidableEq

/-- `huge_t`: a free chunk run, by the offset of its header. -/
structure Huge where
  nvmChunk : ℕ
  nChunks : ℕ
deriving DecidableEq

/-- `arena_run_t`, the volatile header (VHeader) of a run.  `bin` is the arena and the index of the
bin, `next` the next VHeader of the bin's list. -/
structure ArenaRun where
  nvmRun : ℕ
  bin : ℕ × ℕ
  elemSize : ℕ
  nFree : ℕ
  nMax : ℕ
  bitmap : ℕ → Bool
  next : Option ℕ

/-- `arena_bin_t` -/
structure ArenaBin where
  currentRun : Option ℕ
  nFree : ℕ
  nRuns : ℕ
  runs : Option ℕ

/-- `arena_t` -/
structure Arena where
  bins : ℕ → ArenaBin
  freePageruns : SearchTree ArenaBlock

/-- `object_table_entry_t`; `id` is the key the hash map sees, up to its terminating NUL. -/
structure OtEntry where
  id : List UInt8
  slot : ℕ
  dataPtr : ℕ
  nvmEntry : ℕ

/-- The volatile part of the object table: the slot queue and the chained hash map by bucket. -/
structure ObjectTable where
  slotBuffer : ℕ → ℕ
  slotBufferNextIdx : ℕ
  slotBufferHeadIdx : ℕ
  slotBufferTailIdx : ℤ
  slotBufferNFree : ℤ
  hashmap : ℕ → List OtEntry
  totalSlotsAvailable : ℕ
  nextNvmSlot : ℕ

/-! ## The persistent and the whole state -/

/-- What survives a crash: the backing file (its bytes and its size in chunks, which `next_chunk`
mirrors) and the meta file (version counter and activation log). -/
structure Nvm where
  mem : Mem
  nextChunk : ℕ
  version : ℕ
  log : ℕ → ℕ

/-- The state of a process.  `vheaders k` is the memory that the `k`-th `malloc` of an `arena_run_t`
returns, with whatever contents it has before it is written; `nVheaders` of them are allocated. -/
structure World where
  nvm : Nvm
  nvmStart : ℕ
  currentVersion : ℕ
  nextLogEntry : ℕ
  freeChunks : SearchTree Huge
  arenas : ℕ → Arena
  vheaders : ℕ → ArenaRun
  nVheaders : ℕ
  ot : ObjectTable

/-- Why a call does not return: `error_and_exit`, a failed `assert`, an access or division that C
leaves undefined, or a loop that runs forever. -/
inductive Stop where
  | exit
  | assertFailed
  | fault
  | diverges
deriving DecidableEq, Repr

/-- What a call records: a store to the backing file (where, how many bytes, and the image it leaves),
a store to the meta file or to the size of the backing file, or a `PERSIST` of an absolute address
range. -/
inductive Event where
  | store (addr len : ℕ) (img : Nvm)
  | storeMeta (img : Nvm)
  | persist (addr len : ℕ)
  | persistMeta

/-- The image an event leaves behind, if it changes NVM. -/
def Event.image? : Event → Option Nvm
  | .store _ _ img => some img
  | .storeMeta img => some img
  | .persist _ _ => none
  | .persistMeta => none

/-- A function of the library, cut at its NVM stores. -/
abbrev Prog := CrashM World Event Stop

/-! ## Stores and volatile updates -/

/-- Replace the bytes of the backing file. -/
def World.setMem (w : World) (m : Mem) : World := { w with nvm := { w.nvm with mem := m } }

/-- Replace one arena. -/
def World.setArena (w : World) (a : ℕ) (x : Arena) : World :=
  { w with arenas := Function.update w.arenas a x }

/-- Replace the tree of free page runs of one arena. -/
def World.setTree (w : World) (a : ℕ) (t : SearchTree ArenaBlock) : World :=
  w.setArena a { w.arenas a with freePageruns := t }

/-- The bin with this arena and index. -/
def World.bin (w : World) (ab : ℕ × ℕ) : ArenaBin := (w.arenas ab.1).bins ab.2

/-- Replace one bin of one arena. -/
def World.setBin (w : World) (ab : ℕ × ℕ) (b : ArenaBin) : World :=
  w.setArena ab.1 { w.arenas ab.1 with bins := Function.update (w.arenas ab.1).bins ab.2 b }

/-- An NVM store of the low `n` bytes of `v` at `a`. -/
def storeAt (a n v : ℕ) : Prog Unit :=
  CrashM.commit (fun w => .store a n w.nvm) fun w => w.setMem (store w.nvm.mem a n v)

/-- An assignment to a field of the non-volatile struct at `h`. -/
def storeField (h : ℕ) (f : NvmField) (v : ℕ) : Prog Unit := storeAt (h + f.off) f.width v

/-- `memset (a, 0, n)`, byte by byte. -/
def memset0 (a n : ℕ) : Prog Unit :=
  CrashM.commits (fun k w => .store (a + k) 1 w.nvm) (fun k w => w.setMem (fill w.nvm.mem a k)) n

/-- A store to a log slot. -/
def storeLog (i v : ℕ) : Prog Unit :=
  CrashM.commit (fun w => .storeMeta w.nvm) fun w =>
    { w with nvm := { w.nvm with log := Function.update w.nvm.log i v } }

/-- `PERSIST_RANGE` of the `n` bytes at offset `a` from `nvm_start`. -/
def persistRange (a n : ℕ) : Prog Unit := CrashM.emit fun w => .persist (w.nvmStart + a) n

/-- `PERSIST` of the address at offset `a` from `nvm_start`. -/
def persist (a : ℕ) : Prog Unit := persistRange a 1

/-- `PERSIST` of the absolute address `a`. -/
def persistAbs (a : ℕ) : Prog Unit := CrashM.emit fun _ => .persist a 1

/-- `PERSIST` of a word of the meta file. -/
def persistMeta : Prog Unit := CrashM.emit fun _ => .persistMeta

/-- A read of a field of the non-volatile struct at `h`. -/
def loadField (h : ℕ) (f : NvmField) : Prog ℕ := do
  let w ← CrashM.get
  pure (field w.nvm.mem h f)

/-- A C `assert`; the Makefile never defines `NDEBUG`. -/
def assertThat (c : Prop) [Decidable c] : Prog Unit :=
  if c then pure () else CrashM.throw .assertFailed

end NvmMalloc
