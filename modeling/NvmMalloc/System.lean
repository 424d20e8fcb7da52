import NvmMalloc.Recovery

/-!
# Client and crash model

A single-threaded client drives one process: it reserves, activates and frees regions, by pointer or
by identifier, and writes into the memory it was granted.  `Sys` pairs the state of the process with
the ledger of outstanding regions, `Op.Valid` is the usage contract of the interface (activate what is
reserved, free what is active, stay inside granted memory), and `Reachable` collects the states
between two calls.

A crash cuts a call at one of its NVM stores.  Under strict persist order what remains is the image
after a prefix of the stores: `cuts`.
-/

namespace NvmMalloc

open Memory CrashM

/-! ## Outstanding regions -/

/-- A region that `nvm_reserve` returned and `nvm_free` has not released: its pointer, the requested
size, and whether it was activated. -/
structure Region where
  ptr : ℕ
  nBytes : ℕ
  active : Bool
deriving DecidableEq, Repr

/-- The bytes behind the pointer that a request of this size is granted: its slot, or what its pages
or chunks hold after the header. -/
def grantedLen (nBytes : ℕ) : ℕ :=
  if nBytes ≤ sclassSmallMax then
    roundUp nBytes 64
  else if nBytes ≤ sclassLargeMax then
    roundUp nBytes blockSize - headerSize
  else
    chunksFor nBytes * chunkSize - headerSize

/-- The bytes `[a, a + n)` lie inside one outstanding region. -/
def Granted (live : List Region) (a n : ℕ) : Prop :=
  ∃ r ∈ live, r.ptr ≤ a ∧ a + n ≤ r.ptr + grantedLen r.nBytes

instance (live : List Region) (a n : ℕ) : Decidable (Granted live a n) :=
  inferInstanceAs (Decidable (∃ r ∈ live, r.ptr ≤ a ∧ a + n ≤ r.ptr + grantedLen r.nBytes))

/-- Change the activity of the region at `ptr`. -/
def setActive (ptr : ℕ) (live : List Region) : List Region :=
  live.map fun r => if r.ptr = ptr then { r with active := true } else r

/-- Drop the region at `ptr`. -/
def dropRegion (ptr : ℕ) (live : List Region) : List Region := live.filter fun r => r.ptr ≠ ptr

/-- The client state. -/
structure Sys where
  w : World
  live : List Region

/-! ## Operations -/

/-- What the client can do. -/
inductive Op where
  | reserve (a nBytes : ℕ)
  | activate (ptr : ℕ) (l1 l2 : Option Link)
  | free (ptr : ℕ) (l1 l2 : Option Link)
  | write (addr : ℕ) (b : UInt8)
  | reserveId (id : List UInt8) (a nBytes : ℕ)
  | activateId (id : List UInt8)
  | freeId (id : List UInt8)

/-- The call an operation makes, with the pointer it returns. -/
def Op.prog : Op → Prog (Option ℕ)
  | .reserve a nBytes => nvmReserve a nBytes
  | .activate ptr l1 l2 => do nvmActivate ptr l1 l2; pure none
  | .free ptr l1 l2 => do nvmFree ptr l1 l2; pure none
  | .write addr b => do storeAt addr 1 b.toNat; pure none
  | .reserveId id a nBytes => nvmReserveId id a nBytes
  | .activateId id => do nvmActivateId id; pure none
  | .freeId id => do nvmFreeId id; pure none

/-- A supplied link word lies in granted memory. -/
def LinkOk (live : List Region) (l : Option Link) : Prop := ∀ x ∈ l, Granted live x.ptr 8

/-- `ptr` is outstanding with this activity. -/
def Outstanding (live : List Region) (ptr : ℕ) (active : Bool) : Prop :=
  ∃ r ∈ live, r.ptr = ptr ∧ r.active = active

/-- The usage contract: requests of 1 to MAX_NVM_SPACE bytes, activation of reserved regions, freeing of
active ones, link words and writes in granted memory, identifiers that are C strings. -/
def Op.Valid (s : Sys) : Op → Prop
  | .reserve a nBytes => a < initialArenas ∧ 1 ≤ nBytes ∧ nBytes ≤ maxNvmSpace
  | .activate ptr l1 l2 => Outstanding s.live ptr false ∧ LinkOk s.live l1 ∧ LinkOk s.live l2
  | .free ptr l1 l2 => Outstanding s.live ptr true ∧ LinkOk s.live l1 ∧ LinkOk s.live l2
  | .write addr _ => Granted s.live addr 1
  | .reserveId id a nBytes =>
    (0 : UInt8) ∉ id ∧ a < initialArenas ∧ 1 ≤ nBytes ∧ nBytes ≤ maxNvmSpace
  | .activateId id =>
    (0 : UInt8) ∉ id ∧ ∀ e, otGet s.w.ot id = some e → Outstanding s.live e.dataPtr false
  | .freeId id =>
    (0 : UInt8) ∉ id ∧ ∀ e, otGet s.w.ot id = some e → Outstanding s.live e.dataPtr true

instance (live : List Region) (ptr : ℕ) (active : Bool) : Decidable (Outstanding live ptr active) :=
  inferInstanceAs (Decidable (∃ r ∈ live, r.ptr = ptr ∧ r.active = active))

instance (live : List Region) (l : Option Link) : Decidable (LinkOk live l) :=
  inferInstanceAs (Decidable (∀ x ∈ l, Granted live x.ptr 8))

instance (s : Sys) (op : Op) : Decidable (op.Valid s) :=
  match op with
  | .reserve a nBytes =>
    inferInstanceAs (Decidable (a < initialArenas ∧ 1 ≤ nBytes ∧ nBytes ≤ maxNvmSpace))
  | .activate ptr l1 l2 =>
    inferInstanceAs (Decidable (Outstanding s.live ptr false ∧ LinkOk s.live l1 ∧ LinkOk s.live l2))
  | .free ptr l1 l2 =>
    inferInstanceAs (Decidable (Outstanding s.live ptr true ∧ LinkOk s.live l1 ∧ LinkOk s.live l2))
  | .write addr _ => inferInstanceAs (Decidable (Granted s.live addr 1))
  | .reserveId id a nBytes =>
    inferInstanceAs (Decidable
      ((0 : UInt8) ∉ id ∧ a < initialArenas ∧ 1 ≤ nBytes ∧ nBytes ≤ maxNvmSpace))
  | .activateId id =>
    inferInstanceAs (Decidable
      ((0 : UInt8) ∉ id ∧ ∀ e ∈ otGet s.w.ot id, Outstanding s.live e.dataPtr false))
  | .freeId id =>
    inferInstanceAs (Decidable
      ((0 : UInt8) ∉ id ∧ ∀ e ∈ otGet s.w.ot id, Outstanding s.live e.dataPtr true))

/-- The ledger after an operation that returned `res`. -/
def Op.ledger (s : Sys) (res : Option ℕ) : Op → List Region
  | .reserve _ nBytes | .reserveId _ _ nBytes =>
    match res with
    | none => s.live
    | some ptr => ⟨ptr, nBytes, false⟩ :: s.live
  | .activate ptr _ _ => setActive ptr s.live
  | .free ptr _ _ => dropRegion ptr s.live
  | .write _ _ => s.live
  | .activateId id =>
    match otGet s.w.ot id with
    | none => s.live
    | some e => setActive e.dataPtr s.live
  | .freeId id =>
    match otGet s.w.ot id with
    | none => s.live
    | some e => dropRegion e.dataPtr s.live

/-- The region an operation frees. -/
def Op.frees (s : Sys) : Op → Option ℕ
  | .free ptr _ _ => some ptr
  | .freeId id => nvmGetId s.w id
  | _ => none

/-- A reservation that finds no free page run or huge region and extends the heap. -/
def Grows (w : World) (a nBytes : ℕ) : Prop :=
  if nBytes ≤ sclassSmallMax then
    (w.bin (a, roundUp nBytes 64 / 64 - 1)).nFree = 0 ∧
      blockUpperBound 1 (w.arenas a).freePageruns = none
  else if nBytes ≤ sclassLargeMax then
    blockUpperBound (roundUp nBytes blockSize / blockSize) (w.arenas a).freePageruns = none
  else
    chunkUpperBound (chunksFor nBytes % 2 ^ 32) w.freeChunks = none

instance (w : World) (a nBytes : ℕ) : Decidable (Grows w a nBytes) := by
  unfold Grows
  infer_instance

/-- A reservation that turns the page run `x` of one page into a run. -/
def ConvertsPage (w : World) (a nBytes : ℕ) (x : ArenaBlock) : Prop :=
  nBytes ≤ sclassSmallMax ∧ (w.bin (a, roundUp nBytes 64 / 64 - 1)).nFree = 0 ∧
    blockUpperBound 1 (w.arenas a).freePageruns = some x ∧ x.nPages = 1

/-- A reservation that turns a page run of one page into a run. -/
def Converts (w : World) (a nBytes : ℕ) : Prop := ∃ x, ConvertsPage w a nBytes x

/-- A reservation that turns a page run of one page into a run while the log names it. -/
def ConvertsLogged (w : World) (a nBytes : ℕ) : Prop :=
  ∃ x, ConvertsPage w a nBytes x ∧ ∃ i < maxLogEntries, w.nvm.log i = x.nvmBlock + headerSize

/-- An activation of a huge region that no free list has ever held: its header is still in state
INITIALIZING. -/
def FreshHuge (w : World) (ptr : ℕ) : Prop :=
  ptr % chunkSize = headerSize ∧
    field w.nvm.mem (ptr - headerSize) stateF = usageHuge + stateInitializing

/-- A call with one link on a block or huge header that still records an old second link. -/
def StaleLink (w : World) (ptr : ℕ) (l1 l2 : Option Link) : Prop :=
  l1.isSome ∧ l2 = none ∧
    getUsage (field w.nvm.mem (ptr / blockSize * blockSize) stateF) ≠ usageRun ∧
    field w.nvm.mem (ptr / blockSize * blockSize) (onPtrF blockOn 1) ≠ 0

instance (w : World) (ptr : ℕ) (l1 l2 : Option Link) : Decidable (StaleLink w ptr l1 l2) :=
  inferInstanceAs (Decidable (_ ∧ _ ∧ _ ∧ _))

/-- A call that extends the heap. -/
def Op.grows (s : Sys) : Op → Prop
  | .reserve a nBytes => Grows s.w a nBytes
  | .reserveId id a nBytes => (otGet s.w.ot id).isNone ∧ Grows s.w a nBytes
  | _ => False

/-- A call that turns a page run of one page into a run. -/
def Op.converts (s : Sys) : Op → Prop
  | .reserve a nBytes => Converts s.w a nBytes
  | .reserveId id a nBytes => (otGet s.w.ot id).isNone ∧ Converts s.w a nBytes
  | _ => False

/-- A call that turns a page run of one page into a run while the log names it. -/
def Op.convertsLogged (s : Sys) : Op → Prop
  | .reserve a nBytes => ConvertsLogged s.w a nBytes
  | .reserveId id a nBytes => (otGet s.w.ot id).isNone ∧ ConvertsLogged s.w a nBytes
  | _ => False

/-- The arena that a call adds a chunk to. -/
def Op.addsChunk (s : Sys) : Op → Option ℕ
  | .reserve a nBytes => if nBytes ≤ sclassLargeMax ∧ Grows s.w a nBytes then some a else none
  | .reserveId id a nBytes =>
    if (otGet s.w.ot id).isNone ∧ nBytes ≤ sclassLargeMax ∧ Grows s.w a nBytes then some a else none
  | _ => none

/-- A call that activates a huge region no free list has ever held. -/
def Op.activatesFresh (s : Sys) : Op → Prop
  | .activate ptr _ _ => FreshHuge s.w ptr
  | .activateId id => ∃ e, otGet s.w.ot id = some e ∧ FreshHuge s.w e.dataPtr
  | _ => False

/-- A call that commits a header with an old link. -/
def Op.stale (s : Sys) : Op → Prop
  | .activate ptr l1 l2 | .free ptr l1 l2 => StaleLink s.w ptr l1 l2
  | _ => False

/-- One completed call. -/
inductive Step (s : Sys) (op : Op) : Sys → Prop where
  | call {res : Option ℕ} {w' : World} (hvalid : op.Valid s)
      (hrun : (op.prog s.w).2 = .ok (res, w')) : Step s op ⟨w', op.ledger s res⟩

/-- The states between the calls of one process that started on an empty heap. -/
inductive Reachable (P : Process) : Sys → Prop where
  | start {nvm : Nvm} {fuel : ℕ} {w : World}
      (hinit : (nvmInitialize P.junk fuel false (P.start nvm)).2 = .ok ((), w)) :
      Reachable P ⟨w, []⟩
  | step {s s' : Sys} {op : Op} (hs : Reachable P s) (hstep : Step s op s') : Reachable P s'

/-! ## Running a history -/

/-- Make one call, if the usage contract allows it and it returns. -/
def Sys.exec (s : Sys) (op : Op) : Option Sys :=
  if op.Valid s then
    match (op.prog s.w).2 with
    | .ok (res, w') => some ⟨w', op.ledger s res⟩
    | .error _ => none
  else
    none

/-- Make a sequence of calls. -/
def Sys.execs : Sys → List Op → Option Sys
  | s, [] => some s
  | s, op :: ops => (s.exec op).bind fun s' => s'.execs ops

/-- Start a process on an empty heap and make a sequence of calls. -/
def Process.history (P : Process) (nvm : Nvm) (fuel : ℕ) (ops : List Op) : Option Sys :=
  match (nvmInitialize P.junk fuel false (P.start nvm)).2 with
  | .ok (_, w) => (⟨w, []⟩ : Sys).execs ops
  | .error _ => none

/-- A call that was made is a step. -/
theorem Sys.step_of_exec {s s' : Sys} {op : Op} (h : s.exec op = some s') : Step s op s' := by
  unfold Sys.exec at h
  split at h
  · rename_i hvalid
    cases hrun : (op.prog s.w).2 with
    | error e =>
      rw [hrun] at h
      exact absurd h (by simp)
    | ok x =>
      rw [hrun] at h
      exact Option.some.inj h ▸ .call hvalid hrun
  · exact absurd h (by simp)

theorem Reachable.execs {P : Process} {s s' : Sys} {ops : List Op} (hs : Reachable P s)
    (h : s.execs ops = some s') : Reachable P s' := by
  induction ops generalizing s with
  | nil => exact Option.some.inj h ▸ hs
  | cons op ops ih =>
    obtain ⟨s₁, hexec, hrest⟩ := Option.bind_eq_some_iff.mp h
    exact ih (hs.step (Sys.step_of_exec hexec)) hrest

/-- What a history ends in is reachable. -/
theorem Process.reachable_history {P : Process} {nvm : Nvm} {fuel : ℕ} {ops : List Op} {s : Sys}
    (h : P.history nvm fuel ops = some s) : Reachable P s := by
  unfold Process.history at h
  cases hinit : (nvmInitialize P.junk fuel false (P.start nvm)).2 with
  | error e =>
    rw [hinit] at h
    exact absurd h (by simp)
  | ok x =>
    rw [hinit] at h
    exact (Reachable.start hinit).execs h

/-- A test of the state in which a history ends. -/
theorem Process.exists_reachable {P : Process} {nvm : Nvm} {fuel : ℕ} {ops : List Op} {p : Sys → Bool}
    (h : (P.history nvm fuel ops).any p = true) : ∃ s, Reachable P s ∧ p s = true := by
  cases hs : P.history nvm fuel ops with
  | none =>
    rw [hs] at h
    exact absurd h (by simp)
  | some s =>
    rw [hs] at h
    exact ⟨s, Process.reachable_history hs, h⟩

/-- A process to run histories with: NVM is mapped at page 1000000. -/
def sampleProcess : Process :=
  ⟨4096000000, fun _ => ⟨0, (0, 0), 0, 0, 0, fun _ => false, none⟩, fun _ => []⟩

/-- NVM that was never written. -/
def blankNvm : Nvm := ⟨fun _ => 0, 0, 0, fun _ => 0⟩

/-- The calls `ops` on a heap of that process. -/
def sampleHistory (ops : List Op) : Option Sys := sampleProcess.history blankNvm 20 ops

/-! ## Crashes -/

/-- The images a crash inside `p` can leave: NVM before the call or after one of its stores. -/
def cuts {α : Type} (p : Prog α) (w : World) : List Nvm := w.nvm :: (p w).1.filterMap Event.image?

/-- The images a crash can leave in a history of one process: inside its initialisation, or inside a
call made in a reachable state. -/
inductive CrashImage (P : Process) : Nvm → Prop where
  | start {nvm img : Nvm} {fuel : ℕ}
      (himg : img ∈ ((nvmInitialize P.junk fuel false (P.start nvm)).1.filterMap Event.image?)) :
      CrashImage P img
  | call {s : Sys} {op : Op} {img : Nvm} (hs : Reachable P s) (hvalid : op.Valid s)
      (himg : img ∈ cuts op.prog s.w) : CrashImage P img

/-- Recovery of the heap on `img` completes with state `w`: the log loop and the recovery thread. -/
def RecoversHeap (P : Process) (img : Nvm) (w : World) : Prop :=
  ∃ fuel, (recoverHeap fuel (P.start img)).2 = .ok ((), w)

/-- `nvm_initialize` with recovery on `img` completes with state `w`. -/
def Recovers (P : Process) (img : Nvm) (w : World) : Prop :=
  ∃ fuel, (nvmInitialize P.junk fuel true (P.start img)).2 = .ok ((), w)

end NvmMalloc
