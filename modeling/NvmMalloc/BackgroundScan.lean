import NvmMalloc.Malloc
import NvmMalloc.Lib.Interleaving

/-!
# The recovery thread among the calls of the client

Reference: `src/nvm_malloc.c` (`nvm_recovery_thread`, `nvm_reserve`, `nvm_activate`, `nvm_free`),
`src/arena.c` (`arena_create_block`, `arena_create_run`, `arena_add_chunk`, `arena_free`).

`nvm_initialize` starts the recovery thread and returns; from then on the thread walks over the headers
while the client makes calls.  A state of `ScanSys` holds what the two have in common: the headers, the
trees of free page runs and chunks, and the account of the page runs the client has.  The thread moves in
steps, with a step for each read of a header and one for the section under the arena's mutex; a call
moves from its begin to its end at once.  What happens inside a run (slots, bins, VHeaders, links)
is left out: it neither reads nor writes any of this.

The thread reads a header once to learn the usage, and once more to learn the length after it has put the
page run into a tree.  `PagesOnce` is what is to hold in every state, and `ReadsUnclaimed` the condition
under which it does.
-/

namespace NvmMalloc

/-! ## State -/

/-- What is read of a header: the usage bits, `n_pages` or `n_chunks`, which are the same bytes, and
`arena_id` of a block. -/
structure PageHeader where
  usage : ℕ
  count : ℕ
  arenaId : ℕ
deriving DecidableEq

/-- How a page run is in use: reserved, activated, or as a run, whose slots are handed out. -/
inductive PageStatus where
  | reserved
  | activated
  | slots
deriving DecidableEq

/-- A page run in use. -/
structure PageUse where
  nPages : ℕ
  status : PageStatus
deriving DecidableEq

/-- Where the recovery thread is: at the header of chunk `i`, about to read the `n_chunks` of chunk `i`,
at the header on page `j` of chunk `i`, about to put the page run there into a tree, or about to read its
`n_pages`. -/
inductive WalkPc where
  | chunk (i : ℕ)
  | skip (i : ℕ)
  | page (i j : ℕ)
  | found (i j : ℕ)
  | advance (i j : ℕ)
  | done
deriving DecidableEq

/-- The heap of a process after `nvm_initialize_recovered`: headers by page, the free trees, the
page runs in use by their first page, and the recovery thread with its argument. -/
structure ScanSys where
  header : ℕ → PageHeader
  trees : ℕ → SearchTree ArenaBlock
  freeChunks : SearchTree Huge
  nextChunk : ℕ
  used : ℕ → Option PageUse
  nChunks : ℕ
  pc : WalkPc

namespace ScanSys

variable (s : ScanSys)

/-- Write the header on page `p`. -/
def setHeader (p : ℕ) (h : PageHeader) : ScanSys := { s with header := Function.update s.header p h }

/-- `tree_add` on the tree of arena `a`. -/
def addFree (a : ℕ) (b : ArenaBlock) : ScanSys :=
  { s with trees := Function.update s.trees a ((s.trees a).treeAdd ArenaBlock.nPages b) }

/-- Enter the page run at `p` in the account, or strike it out. -/
def setUsed (p : ℕ) (u : Option PageUse) : ScanSys := { s with used := Function.update s.used p u }

/-! ## Reservation -/

/-- `arena_add_chunk`; `arena_id` is not written. -/
def addChunk (a : ℕ) : Option (ArenaBlock × ScanSys) :=
  if s.nextChunk + 1 > maxNvmChunks then none
  else
    let p := 1024 * s.nextChunk
    let s := s.setHeader p { s.header p with usage := usageArena }
    let s := s.setHeader (p + 1) { s.header (p + 1) with usage := usageFree, count := 1023 }
    some (⟨4096 * (p + 1), 1023, a⟩, { s with nextChunk := s.nextChunk + 1 })

/-- The head of `arena_create_run` and `arena_create_block`: unlink the best fit, or add a chunk. -/
def takeBlock (a reqPages : ℕ) : Option (ArenaBlock × ScanSys) :=
  match blockUpperBound reqPages (s.trees a) with
  | none => s.addChunk a
  | some b => some (b, { s with trees := Function.update s.trees a ((s.trees a).treeDel b) })

/-- The rest of `arena_create_block`, with the assertion that a page is left; the page of the block. -/
def cutBlock (a nPages : ℕ) (b : ArenaBlock) : Option (ℕ × ScanSys) :=
  let p := b.nvmBlock / blockSize
  if b.nPages > nPages then
    let q := p + (b.nPages - nPages)
    let s := s.setHeader q ⟨usageFree, nPages, a⟩
    let left := ((s.header p).count + 2 ^ 32 - nPages) % 2 ^ 32
    if 0 < left then
      some (q, (s.setHeader p { s.header p with count := left }).addFree a
        { b with nPages := b.nPages - nPages })
    else none
  else
    some (p, s)

/-- The header of a run holds zeros where a block has `n_pages` and `arena_id`. -/
def runHeader : PageHeader := ⟨usageRun, 0, 0⟩

/-- The rest of `arena_create_run`; the page of the run. -/
def cutRun (a : ℕ) (b : ArenaBlock) : ℕ × ScanSys :=
  let p := b.nvmBlock / blockSize
  if b.nPages > 1 then
    let q := p + (b.nPages - 1)
    let s := s.setHeader q runHeader
    (q, (s.setHeader p { s.header p with count := b.nPages - 1 }).addFree a
      { b with nPages := b.nPages - 1 })
  else
    (p, s.setHeader p runHeader)

/-- `arena_create_block` on behalf of the client. -/
def reserveLarge (a nPages : ℕ) : Option ScanSys :=
  (s.takeBlock a nPages).bind fun x =>
    (x.2.cutBlock a nPages x.1).map fun y => y.2.setUsed y.1 (some ⟨nPages, .reserved⟩)

/-- `arena_create_run` on behalf of the client. -/
def reserveRun (a : ℕ) : Option ScanSys :=
  (s.takeBlock a 1).map fun x =>
    let y := x.2.cutRun a x.1
    y.2.setUsed y.1 (some ⟨1, .slots⟩)

/-- The huge branch of `nvm_reserve`. -/
def reserveChunks (nChunks : ℕ) : Option ScanSys :=
  match chunkUpperBound (nChunks % 2 ^ 32) s.freeChunks with
  | none =>
    if s.nextChunk + nChunks > maxNvmChunks then none
    else
      let p := 1024 * s.nextChunk
      let s := { s with nextChunk := s.nextChunk + nChunks }
      some ((s.setHeader p { s.header p with usage := usageHuge, count := nChunks }).setUsed p
        (some ⟨1024 * nChunks, .reserved⟩))
  | some x =>
    let s := { s with freeChunks := s.freeChunks.treeDel x }
    let p := x.nvmChunk / blockSize
    if x.nChunks > nChunks then
      let q := p + 1024 * (x.nChunks - nChunks)
      let s := s.setHeader q { s.header q with usage := usageFree, count := nChunks }
      let s := s.setHeader p
        { s.header p with count := ((s.header p).count + 2 ^ 32 - nChunks) % 2 ^ 32 }
      let rest : Huge := { x with nChunks := x.nChunks - nChunks }
      some ({ s with freeChunks := s.freeChunks.treeAdd Huge.nChunks rest }.setUsed q
        (some ⟨1024 * nChunks, .reserved⟩))
    else
      some (s.setUsed p (some ⟨1024 * nChunks, .reserved⟩))

/-- `nvm_reserve`.  For a small request `room` says whether the bin has a free slot. -/
def reserve (a nBytes : ℕ) (room : Bool) : Option ScanSys :=
  if nBytes ≤ sclassLargeMax then
    if nBytes ≤ sclassSmallMax then
      if room then some s else s.reserveRun a
    else
      s.reserveLarge a (roundUp nBytes blockSize / blockSize)
  else
    s.reserveChunks (chunksFor nBytes)

/-! ## Activation and deallocation -/

/-- `nvm_activate` of the object behind the header on page `p`. -/
def activate (p : ℕ) : ScanSys :=
  if p % 1024 = 0 then
    s.setHeader p { s.header p with usage := usageHuge }
  else if (s.header p).usage = usageFree then
    s.setHeader p { s.header p with usage := usageBlock }
  else
    s

/-- `nvm_free` of the object behind the header on page `p`.  An arena index out of range is undefined in
C. -/
def free (p : ℕ) : Option ScanSys :=
  let h := s.header p
  if p % 1024 = 0 then
    some { s.setHeader p { h with usage := usageFree } with
      freeChunks := s.freeChunks.treeAdd Huge.nChunks ⟨4096 * p, h.count⟩ }
  else if h.usage = usageBlock then
    if h.arenaId < initialArenas then
      some ((s.setHeader p { h with usage := usageFree }).addFree h.arenaId
        ⟨4096 * p, h.count % 2 ^ 16, h.arenaId⟩)
    else none
  else
    some s

/-! ## The recovery thread -/

/-- `arena_create_block_header` and `tree_add` for the header on page `p`. -/
def insert (p : ℕ) : Option ScanSys :=
  let h := s.header p
  if h.arenaId < initialArenas then
    some (s.addFree h.arenaId ⟨4096 * p, h.count % 2 ^ 16, h.arenaId⟩)
  else none

/-- A step of `nvm_recovery_thread`.  The VHeader of a run concerns the bins only. -/
def scan : Option ScanSys :=
  match s.pc with
  | .chunk i =>
    if i < s.nChunks then
      if (s.header (1024 * i)).usage = usageArena then some { s with pc := .page i 1 }
      else some { s with pc := .skip i }
    else some { s with pc := .done }
  | .skip i => some { s with pc := .chunk (i + (s.header (1024 * i)).count) }
  | .page i j =>
    if j < 1024 then
      if (s.header (1024 * i + j)).usage = usageFree then some { s with pc := .found i j }
      else if (s.header (1024 * i + j)).usage = usageRun then some { s with pc := .page i (j + 1) }
      else some { s with pc := .advance i j }
    else some { s with pc := .chunk (i + 1) }
  | .found i j => (s.insert (1024 * i + j)).map fun s => { s with pc := .advance i j }
  | .advance i j => some { s with pc := .page i (j + (s.header (1024 * i + j)).count) }
  | .done => none

end ScanSys

/-! ## Interleavings -/

/-- What happens next: a step of the recovery thread, a call, or a write of the client into page `p` of
the page run it has at `q`, which may put anything where a header would be. -/
inductive ScanAction where
  | scan
  | reserve (a nBytes : ℕ) (room : Bool)
  | activate (p : ℕ)
  | free (p : ℕ)
  | write (q p : ℕ) (h : PageHeader)

/-- One action.  The client activates what it has reserved and frees what is active; a call on a
slot of a run leaves the pages alone. -/
def backgroundStep (s : ScanSys) : ScanAction → Option ScanSys
  | .scan => s.scan
  | .reserve a nBytes room =>
    if a < initialArenas ∧ 1 ≤ nBytes ∧ nBytes ≤ maxNvmSpace then s.reserve a nBytes room else none
  | .activate p =>
    match s.used p with
    | some ⟨n, .reserved⟩ => some ((s.activate p).setUsed p (some ⟨n, .activated⟩))
    | some ⟨_, .slots⟩ => some s
    | _ => none
  | .free p =>
    match s.used p with
    | some ⟨_, .activated⟩ => (s.free p).map fun s => s.setUsed p none
    | some ⟨_, .slots⟩ => some s
    | _ => none
  | .write q p h =>
    match s.used q with
    | some u => if q < p ∧ p < q + u.nPages then some (s.setHeader p h) else none
    | none => none

/-- The nodes of all trees of free page runs. -/
def ScanSys.freePageruns (s : ScanSys) : List ArenaBlock :=
  (List.range initialArenas).flatMap fun a => (s.trees a).toList

/-- No page run is twice in the trees, and none of them overlaps a page run in use. -/
structure PagesOnce (s : ScanSys) : Prop where
  once : (s.freePageruns.map ArenaBlock.nvmBlock).Nodup
  apart : ∀ b ∈ s.freePageruns, ∀ p u, s.used p = some u →
    b.nvmBlock + blockSize * b.nPages ≤ blockSize * p ∨ blockSize * (p + u.nPages) ≤ b.nvmBlock

/-- The header on page `p` is that of a page run with pages, which is in no tree and not in use. -/
def ScanSys.Unclaimed (s : ScanSys) (p : ℕ) : Prop :=
  (s.header p).count ≠ 0 ∧ (∀ b ∈ s.freePageruns, b.nvmBlock ≠ blockSize * p) ∧ s.used p = none

/-- If the step of the recovery thread reads usage FREE, the page run is unclaimed. -/
def ReadsUnclaimed (s : ScanSys) : ScanAction → Prop
  | .scan =>
    match s.pc with
    | .page i j => j < 1024 → (s.header (1024 * i + j)).usage = usageFree → s.Unclaimed (1024 * i + j)
    | _ => True
  | _ => True

instance (s : ScanSys) (p : ℕ) : Decidable (s.Unclaimed p) :=
  inferInstanceAs (Decidable (_ ∧ _ ∧ _))

instance (s : ScanSys) (act : ScanAction) : Decidable (ReadsUnclaimed s act) :=
  match act with
  | .scan => by
    unfold ReadsUnclaimed
    exact match s.pc with
    | .page i j => inferInstanceAs (Decidable (j < 1024 →
        (s.header (1024 * i + j)).usage = usageFree → s.Unclaimed (1024 * i + j)))
    | .chunk _ | .skip _ | .found _ _ | .advance _ _ | .done => isTrue trivial
  | .reserve .. | .activate .. | .free .. | .write .. => isTrue trivial

end NvmMalloc
