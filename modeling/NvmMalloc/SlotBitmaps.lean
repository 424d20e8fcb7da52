import NvmMalloc.Lib.Threads
import NvmMalloc.SlotProtocol

/-!
# The volatile and the persistent bitmap of a run

Reference: `src/arena.c` (`arena_allocate`, `arena_create_run`, `arena_free`, small regions),
`src/nvm_malloc.c` (`nvm_reserve`, `nvm_activate`, small regions).

A run keeps two bitmaps.  The volatile one is changed under the mutex of the bin, by `arena_allocate`
and by the end of `arena_free`; the one on NVM is changed between the compare-and-swap on the state of
the run and the store that releases it.  Here any number of threads reserve, activate and free slots
after `nvm_initialize_empty`.  Activations and frees go step by step as in `slotStep`; a reservation,
which holds the mutex of its bin and touches no header but that of a new run, is one step.

The account of the client says which slots are outstanding, and how far.  `bitmaps_agree`: the volatile
bitmap is the set of outstanding slots, the persistent one that of the activated slots once no call is in
flight, and between the steps of calls it never leaves the volatile one.
-/

namespace NvmMalloc

open Memory Interleaving Threads

/-! ## Reservation -/

/-- What the client knows of a slot: it is reserved or activated, or a call is busy with it; `active`
says whether the slot was activated when the call began. -/
inductive SlotStatus where
  | reserved
  | activated
  | busy (kind : SlotOp) (active : Bool)
deriving DecidableEq

/-- An outstanding slot: the pointer that `nvm_reserve` returned, and what became of it. -/
structure Slot where
  ptr : ℕ
  status : SlotStatus

/-- The heap of a process that serves small requests only, with the account of the client by VHeader and
index, and the calls of the threads. -/
structure BitmapSys (ι : Type) where
  heap : SlotHeap
  trees : ℕ → SearchTree ArenaBlock
  nextChunk : ℕ
  slots : ℕ → ℕ → Option Slot
  call : ι → SlotCall
  slot : ι → ℕ × ℕ
  pc : ι → SlotPc

section

variable {ι : Type} (s : BitmapSys ι)

/-- `arena_add_chunk` and `tree_upper_bound` at the head of `arena_create_run`: a block with a page, and
the tree without it. -/
def BitmapSys.takeBlock (a : ℕ) : Option (ArenaBlock × BitmapSys ι) :=
  match blockUpperBound 1 (s.trees a) with
  | some b => some (b, { s with trees := Function.update s.trees a ((s.trees a).treeDel b) })
  | none =>
    if s.nextChunk + 1 > maxNvmChunks then none
    else
      some (⟨s.nextChunk * chunkSize + blockSize, chunkSize / blockSize - 1, a⟩,
        { s with nextChunk := s.nextChunk + 1 })

/-- The page that `arena_create_run` takes from a block, and what is left of the block in the tree. -/
def BitmapSys.cutPage (a : ℕ) (b : ArenaBlock) : ℕ × BitmapSys ι :=
  if b.nPages > 1 then
    (b.nvmBlock + (b.nPages - 1) * blockSize,
      { s with trees := Function.update s.trees a
                ((s.trees a).treeAdd ArenaBlock.nPages { b with nPages := b.nPages - 1 }) })
  else
    (b.nvmBlock, s)

/-- The header of a new run. -/
def newRunFields (a nBytes run version : ℕ) : RunFields :=
  ⟨usageRun + stateInitialized, nBytes, a, run, version % 2 ^ 32, bitIdxNone, fun _ => (0, 0),
    fun _ => 0⟩

/-- The volatile and the nonvolatile run object at `nvmRun`, and the bin after `arena_allocate` has put
the run into it. -/
def BitmapSys.newRun (a b nBytes nvmRun : ℕ) : BitmapSys ι :=
  let run := s.heap.nVheaders
  { s with
    heap := { s.heap with
      header := Function.update s.heap.header (nvmRun / blockSize)
        (newRunFields a nBytes run s.heap.currentVersion)
      vheaders := Function.update s.heap.vheaders run (freshRun a b nBytes nvmRun (s.heap.vheaders run))
      nVheaders := run + 1
      bin := Function.update s.heap.bin (a, b) (addRun (s.heap.bin (a, b)) run nBytes) } }

/-- The run that serves the request, and the heap in which it is the current one. -/
def BitmapSys.selectRun (a b nBytes : ℕ) : Option (ℕ × BitmapSys ι) :=
  if (s.heap.bin (a, b)).nFree = 0 then
    (s.takeBlock a).map fun x =>
      let y := x.2.cutPage a x.1
      (y.2.heap.nVheaders, y.2.newRun a b nBytes y.1)
  else
    (NvmMalloc.selectRun s.heap.vheaders (s.heap.bin (a, b))).map fun x =>
      (x.1, { s with heap := { s.heap with bin := Function.update s.heap.bin (a, b) x.2 } })

/-- Take a slot of the run; the client gets the pointer. -/
def BitmapSys.takeSlot (a b nBytes run : ℕ) : BitmapSys ι :=
  let t := NvmMalloc.takeSlot s.heap.vheaders (s.heap.bin (a, b)) run nBytes
  { s with
    heap := { s.heap with vheaders := t.2.1, bin := Function.update s.heap.bin (a, b) t.2.2 }
    slots := match t.1 with
      | none => s.slots
      | some i => Function.update s.slots run (Function.update (s.slots run) i
          (some ⟨(s.heap.vheaders run).nvmRun + headerSize + nBytes * i, .reserved⟩)) }

/-- `nvm_reserve` of a small object in arena `a`. -/
def BitmapSys.reserve (a nBytes : ℕ) : Option (BitmapSys ι) :=
  let nBytes := roundUp nBytes 64
  let b := nBytes / 64 - 1
  (s.selectRun a b nBytes).map fun x => x.2.takeSlot a b nBytes x.1

end

/-! ## Calls -/

/-- What a thread does next: reserve a small object, begin a call on slot `i` of VHeader `r`, or take the
next step of the call it is in. -/
inductive BitmapAction (ι : Type) where
  | reserve (a nBytes : ℕ)
  | activate (k : ι) (r i : ℕ) (link1 link2 : Option (ℕ × ℕ))
  | free (k : ι) (r i : ℕ) (link1 link2 : Option (ℕ × ℕ))
  | go (k : ι)

section

variable {ι : Type} [DecidableEq ι] (s : BitmapSys ι)

/-- The account with another entry for a slot. -/
def BitmapSys.setSlot (r i : ℕ) (x : Option Slot) : BitmapSys ι :=
  { s with slots := Function.update s.slots r (Function.update (s.slots r) i x) }

/-- Thread `k` begins a call on slot `i` of VHeader `r`. -/
def BitmapSys.begin (k : ι) (r i ptr : ℕ) (kind : SlotOp) (active : Bool)
    (link1 link2 : Option (ℕ × ℕ)) : BitmapSys ι :=
  { s.setSlot r i (some ⟨ptr, .busy kind active⟩) with
    call := Function.update s.call k ⟨kind, ptr, link1, link2⟩
    slot := Function.update s.slot k (r, i)
    pc := Function.update s.pc k .loadUsage }

/-- The account when the call of thread `k` returns. -/
def BitmapSys.finish (k : ι) : BitmapSys ι :=
  match (s.call k).kind with
  | .activate => s.setSlot (s.slot k).1 (s.slot k).2 (some ⟨(s.call k).ptr, .activated⟩)
  | .free => s.setSlot (s.slot k).1 (s.slot k).2 none

/-- The step of a thread.  A slot is activated once after it is reserved and freed once, and no two calls
are busy with it. -/
def bitmapStep : BitmapAction ι → Option (BitmapSys ι)
  | .reserve a nBytes =>
    if a < initialArenas ∧ 1 ≤ nBytes ∧ nBytes ≤ sclassSmallMax then s.reserve a nBytes else none
  | .activate k r i link1 link2 =>
    match s.pc k, s.slots r i with
    | .done, some ⟨ptr, .reserved⟩ => some (s.begin k r i ptr .activate false link1 link2)
    | _, _ => none
  | .free k r i link1 link2 =>
    match s.pc k, s.slots r i with
    | .done, some ⟨ptr, .reserved⟩ => some (s.begin k r i ptr .free false link1 link2)
    | .done, some ⟨ptr, .activated⟩ => some (s.begin k r i ptr .free true link1 link2)
    | _, _ => none
  | .go k =>
    match slotStep (s.call k) s.heap (s.pc k) with
    | none => none
    | some (heap, pc) =>
      let s' := { s with heap := heap, pc := Function.update s.pc k pc }
      match pc with
      | .done => some (s'.finish k)
      | _ => some s'

end

/-- The state that `nvm_initialize_empty` leaves: one free block in every arena, empty bins. -/
structure BitmapSys.Init {ι : Type} (s : BitmapSys ι) : Prop where
  version : s.heap.currentVersion = 0
  nVheaders : s.heap.nVheaders = 0
  bins : ∀ ab, s.heap.bin ab = ⟨none, 0, 0, none⟩
  trees : ∀ a, s.trees a = if a < initialArenas then
    SearchTree.nil.treeAdd ArenaBlock.nPages ⟨a * chunkSize + blockSize, chunkSize / blockSize - 1, a⟩
    else .nil
  nextChunk : s.nextChunk = initialArenas
  slots : ∀ r i, s.slots r i = none
  pc : ∀ k, s.pc k = .done

/-! ## What is to hold -/

section

variable {ι : Type}

/-- The index that `nvm_activate` computes from a pointer. -/
def SlotHeap.activateIndex (h : SlotHeap) (ptr : ℕ) : ℕ :=
  (ptr - (ptr / blockSize * blockSize + headerSize)) / (h.header (ptr / blockSize)).nBytes % 2 ^ 16

/-- The index that `arena_free` computes from a pointer. -/
def SlotHeap.freeIndex (h : SlotHeap) (ptr : ℕ) : ℕ :=
  (ptr - (ptr / blockSize * blockSize + headerSize)) /
    (h.vheaders (h.header (ptr / blockSize)).vdata).elemSize

/-- Bit `i` of the bitmap that the run of VHeader `r` has on NVM. -/
def SlotHeap.nvmBit (h : SlotHeap) (r i : ℕ) : Bool :=
  (h.header ((h.vheaders r).nvmRun / blockSize)).bit i

/-- The persistent bitmap of every run is a subset of the volatile one. -/
def NvmWithinVolatile (s : BitmapSys ι) : Prop :=
  ∀ r < s.heap.nVheaders, ∀ i, s.heap.nvmBit r i = true → (s.heap.vheaders r).bitmap i = true

/-- The two bitmaps of every run agree with the account of the client, and the indices with those that
`arena_allocate` took. -/
structure BitmapsAgree (s : BitmapSys ι) : Prop where
  volatile : ∀ r < s.heap.nVheaders, ∀ i, (s.heap.vheaders r).bitmap i = true ↔
    ∃ x, s.slots r i = some x ∧ (x.status = .reserved ∨ x.status = .activated)
  nvm : ∀ r < s.heap.nVheaders, ∀ i, s.heap.nvmBit r i = true ↔
    ∃ x, s.slots r i = some x ∧ x.status = .activated
  index : ∀ r i x, s.slots r i = some x → r < s.heap.nVheaders ∧
    s.heap.activateIndex x.ptr = i ∧ s.heap.freeIndex x.ptr = i

end

/-! ## Pages -/

/-- Who has a page: the runs, or a free block of an arena. -/
inductive PageOwner where
  | run
  | block (a : ℕ) (b : ArenaBlock)

/-- Page `p` lies in the block. -/
def ArenaBlock.Covers (b : ArenaBlock) (p : ℕ) : Prop :=
  ∃ q, b.nvmBlock = blockSize * q ∧ q ≤ p ∧ p < q + b.nPages

/-- The owner has the page. -/
def OwnsPage (trees : ℕ → SearchTree ArenaBlock) (runs : ℕ → Prop) : PageOwner → ℕ → Prop
  | .run, p => runs p
  | .block a b, p => b ∈ (trees a).toList ∧ b.Covers p

/-- No page is in two places, and all are in the first `n` chunks. -/
structure PagesOk (trees : ℕ → SearchTree ArenaBlock) (runs : ℕ → Prop) (n : ℕ) : Prop where
  nodup : ∀ a, (trees a).toList.Nodup
  aligned : ∀ {a b}, b ∈ (trees a).toList → ∃ q, b.nvmBlock = blockSize * q
  exclusive : Exclusive (OwnsPage trees runs)
  bound : ∀ {o p}, OwnsPage trees runs o p → p < 1024 * n ∧ p % 1024 ≠ 0

/-- A block that was taken out: its pages belong to nobody else. -/
structure BlockInHand (trees : ℕ → SearchTree ArenaBlock) (runs : ℕ → Prop) (n : ℕ) (b : ArenaBlock) :
    Prop where
  aligned : ∃ q, b.nvmBlock = blockSize * q
  pos : 1 ≤ b.nPages
  free : ∀ {p}, b.Covers p → ∀ o, ¬ OwnsPage trees runs o p
  bound : ∀ {p}, b.Covers p → p < 1024 * n ∧ p % 1024 ≠ 0

section

variable {ι : Type} {s s' : BitmapSys ι} {runs : ℕ → Prop} {a : ℕ} {b : ArenaBlock}

/-- A block leaves the tree, or a chunk is added. -/
theorem PagesOk.takeBlock (h : PagesOk s.trees runs s.nextChunk) (htake : s.takeBlock a = some (b, s')) :
    s' = { s with trees := s'.trees, nextChunk := s'.nextChunk } ∧
      PagesOk s'.trees runs s'.nextChunk ∧ BlockInHand s'.trees runs s'.nextChunk b := by
  unfold BitmapSys.takeBlock at htake
  cases hub : blockUpperBound 1 (s.trees a) with
  | some x =>
    rw [hub] at htake
    obtain ⟨rfl, rfl⟩ := Prod.mk.inj (Option.some.inj htake)
    have hx : x ∈ (s.trees a).toList := (SearchTree.treeUpperBound_mem hub).resolve_right (by simp)
    have hperm := SearchTree.treeDel_perm hx
    obtain ⟨hnot, hnd⟩ := List.nodup_cons.mp (hperm.nodup_iff.mpr (h.nodup a))
    have hmem : ∀ {a' y}, y ∈ (Function.update s.trees a ((s.trees a).treeDel x) a').toList →
        y ∈ (s.trees a').toList ∧ (a' = a → y ≠ x) := by
      intro a' y hy
      by_cases ha : a' = a
      · subst ha
        rw [Function.update_self] at hy
        exact ⟨hperm.mem_iff.mp (List.mem_cons_of_mem _ hy), fun _ => ne_of_mem_of_not_mem hy hnot⟩
      · rw [Function.update_of_ne ha] at hy
        exact ⟨hy, fun heq => absurd heq ha⟩
    have howns : ∀ o p, OwnsPage (Function.update s.trees a ((s.trees a).treeDel x)) runs o p →
        OwnsPage s.trees runs o p := by
      intro o p ho
      cases o with
      | run => exact ho
      | block a' y => exact ⟨(hmem ho.1).1, ho.2⟩
    refine ⟨rfl, ⟨fun a' => ?_, fun hy => h.aligned (hmem hy).1, h.exclusive.drop howns,
      fun ho => h.bound (howns _ _ ho)⟩, ⟨h.aligned hx, ?_, fun hp o ho => ?_, fun hp => ?_⟩⟩
    · show (Function.update s.trees a _ a').toList.Nodup
      by_cases ha : a' = a
      · subst ha
        rwa [Function.update_self]
      · rw [Function.update_of_ne ha]
        exact h.nodup a'
    · exact SearchTree.le_key_treeUpperBound (by simp) hub
    · -- another owner would share the page with the block when it was in the tree
      have hsame := h.exclusive (howns o _ ho) (show OwnsPage s.trees runs (.block a x) _ from ⟨hx, hp⟩)
      subst hsame
      exact (hmem ho.1).2 rfl rfl
    · exact h.bound (o := .block a x) ⟨hx, hp⟩
  | none =>
    rw [hub] at htake
    simp only at htake
    split at htake
    case isTrue => cases htake
    case isFalse hroom =>
      cases htake
      have hcovers : ∀ {p}, (ArenaBlock.mk (s.nextChunk * chunkSize + blockSize)
          (chunkSize / blockSize - 1)
          a).Covers p → 1024 * s.nextChunk + 1 ≤ p ∧ p < 1024 * s.nextChunk + 1024 := by
        rintro p ⟨q, hq, hlo, hhi⟩
        simp only [chunkSize, blockSize] at hq hhi
        omega
      refine ⟨rfl, ⟨h.nodup, h.aligned, h.exclusive, fun ho => ?_⟩, ⟨?_, ?_, fun hp o ho => ?_,
        fun hp => ?_⟩⟩
      · have hb := h.bound ho
        exact ⟨by show _ < 1024 * (s.nextChunk + 1); omega, hb.2⟩
      · exact ⟨1024 * s.nextChunk + 1, by simp only [chunkSize, blockSize]; omega⟩
      · show 1 ≤ chunkSize / blockSize - 1
        decide
      · have hb := h.bound ho
        have hc := hcovers hp
        omega
      · have hc := hcovers hp
        show _ < 1024 * (s.nextChunk + 1) ∧ _
        omega

/-- The last page of the block becomes a run, and the rest goes back into the tree. -/
theorem PagesOk.cutPage (h : PagesOk s.trees runs s.nextChunk)
    (hb : BlockInHand s.trees runs s.nextChunk b) :
    ∃ p trees, s.cutPage a b = (blockSize * p, { s with trees := trees }) ∧ ¬ runs p ∧ p % 1024 ≠ 0 ∧
      PagesOk trees (fun q => q = p ∨ runs q) s.nextChunk := by
  obtain ⟨q, hq⟩ := hb.aligned
  have hpos := hb.pos
  have hlast : b.Covers (q + (b.nPages - 1)) := ⟨q, hq, Nat.le_add_right _ _, by omega⟩
  have hfree := hb.free hlast
  have hbound := hb.bound hlast
  unfold BitmapSys.cutPage
  by_cases hmany : b.nPages > 1
  · rw [if_pos hmany]
    have hrest : ∀ {p}, ({ b with nPages := b.nPages - 1 } : ArenaBlock).Covers p →
        b.Covers p ∧ p ≠ q + (b.nPages - 1) := by
      rintro p ⟨q', hq', hlo, hhi⟩
      simp only [blockSize] at hq hq' hhi
      have hqq : q' = q := by omega
      subst hqq
      refine ⟨⟨q', hq', hlo, by omega⟩, by omega⟩
    have hperm := SearchTree.treeAdd_perm ArenaBlock.nPages { b with nPages := b.nPages - 1 } (s.trees a)
    have hnew : ({ b with nPages := b.nPages - 1 } : ArenaBlock) ∉ (s.trees a).toList := by
      intro hmem
      have hcovers : ({ b with nPages := b.nPages - 1 } : ArenaBlock).Covers q :=
        ⟨q, hq, le_rfl, by show q < q + (b.nPages - 1); omega⟩
      exact hb.free (hrest hcovers).1 (.block a _) ⟨hmem, hcovers⟩
    have hmem : ∀ {a' y}, y ∈ (Function.update s.trees a
        ((s.trees a).treeAdd ArenaBlock.nPages { b with nPages := b.nPages - 1 }) a').toList →
        (a' = a ∧ y = { b with nPages := b.nPages - 1 }) ∨ y ∈ (s.trees a').toList := by
      intro a' y hy
      by_cases ha : a' = a
      · subst ha
        rw [Function.update_self, hperm.mem_iff, List.mem_cons] at hy
        exact hy.imp_left fun heq => ⟨rfl, heq⟩
      · rw [Function.update_of_ne ha] at hy
        exact Or.inr hy
    -- every page was somebody's before, or is one of the block in hand
    have howns : ∀ {o p}, OwnsPage (Function.update s.trees a
        ((s.trees a).treeAdd ArenaBlock.nPages { b with nPages := b.nPages - 1 }))
        (fun q' => q' = q + (b.nPages - 1) ∨ runs q') o p →
        (o = .run ∧ p = q + (b.nPages - 1)) ∨
        (o = .block a { b with nPages := b.nPages - 1 } ∧ b.Covers p ∧ p ≠ q + (b.nPages - 1)) ∨
        OwnsPage s.trees runs o p := by
      intro o p ho
      cases o with
      | run => exact ho.imp (fun heq => ⟨rfl, heq⟩) Or.inr
      | block a' y =>
        rcases hmem ho.1 with ⟨rfl, rfl⟩ | hold
        · exact Or.inr (Or.inl ⟨rfl, hrest ho.2⟩)
        · exact Or.inr (Or.inr ⟨hold, ho.2⟩)
    refine ⟨q + (b.nPages - 1), _, Prod.ext ?_ rfl, hfree .run, hbound.2,
      ⟨fun a' => ?_, fun {a' y} hy => ?_, ?_, ?_⟩⟩
    · show b.nvmBlock + (b.nPages - 1) * blockSize = _
      rw [hq]
      ring
    · show (Function.update s.trees a _ a').toList.Nodup
      by_cases ha : a' = a
      · subst ha
        rw [Function.update_self, hperm.nodup_iff, List.nodup_cons]
        exact ⟨hnew, h.nodup a'⟩
      · rw [Function.update_of_ne ha]
        exact h.nodup a'
    · rcases hmem hy with ⟨-, rfl⟩ | hold
      · exact ⟨q, hq⟩
      · exact h.aligned hold
    · intro o o' p ho ho'
      rcases howns ho with ⟨rfl, rfl⟩ | ⟨rfl, hc, hne⟩ | hold <;>
        rcases howns ho' with ⟨rfl, hp⟩ | ⟨rfl, hc', hne'⟩ | hold'
      · rfl
      · exact absurd rfl hne'
      · exact absurd hold' (hfree _)
      · exact absurd hp hne
      · rfl
      · exact absurd hold' (hb.free hc _)
      · exact absurd (hp ▸ hold) (hfree _)
      · exact absurd hold (hb.free hc' _)
      · exact h.exclusive hold hold'
    · intro o p ho
      rcases howns ho with ⟨-, rfl⟩ | ⟨-, hc, -⟩ | hold
      · exact hbound
      · exact hb.bound hc
      · exact h.bound hold
  · rw [if_neg hmany]
    have hone : q + (b.nPages - 1) = q := by omega
    rw [hone] at hfree hbound
    have howns : ∀ {o p}, OwnsPage s.trees (fun q' => q' = q ∨ runs q') o p →
        (o = .run ∧ p = q) ∨ OwnsPage s.trees runs o p := by
      intro o p ho
      cases o with
      | run => exact ho.imp_left fun heq => ⟨rfl, heq⟩
      | block a' y => exact Or.inr ho
    refine ⟨q, s.trees, Prod.ext hq rfl, hfree .run, hbound.2, ⟨h.nodup, h.aligned, ?_, ?_⟩⟩
    · exact h.exclusive.bring hfree fun o p ho => howns ho
    · intro o p ho
      rcases howns ho with ⟨-, rfl⟩ | hold
      · exact hbound
      · exact h.bound hold

end

/-! ## Steps of a call in a process without stale runs -/

/-- The VHeader that a call works with is `r`; no call makes a VHeader. -/
def SlotPc.WorksWith (r : ℕ) : SlotPc → Prop
  | .loadVersion run | .loadElemSize run => run = r
  | .compareVdata _ _ | .storeVdata _ | .storeVersion | .reloadVdata => False
  | .record v _ | .loadByte v | .storeByte v _ | .release v | .clear v _ =>
    ∀ run, v.run = some run → run = r
  | _ => True

/-- What a step does besides the bitmap and the state of the header. -/
structure PlainStep (c : SlotCall) (s : SlotHeap) (pc : SlotPc) (s' : SlotHeap) (pc' : SlotPc) (r : ℕ) :
    Prop where
  worksWith : pc'.WorksWith r
  vdata : (s'.header c.page).vdata = (s.header c.page).vdata
  version : (s'.header c.page).version = (s.header c.page).version
  arenaId : (s'.header c.page).arenaId = (s.header c.page).arenaId
  nVheaders : s'.nVheaders = s.nVheaders
  -- only the last step of `arena_free` changes volatile memory
  volatile : (s'.vheaders = s.vheaders ∧ s'.bin = s.bin ∧
      (pc' = .done → ∃ v, pc = .clear v [] ∧ v.run = none)) ∨
    ∃ v, pc = .clear v [] ∧ v.run = some r ∧ pc' = .done ∧ s' = s.release r v.runIdx

section

variable {c : SlotCall} {s s' : SlotHeap} {pc pc' : SlotPc} {r : ℕ}

theorem RunFields.apply_rest (h : RunFields) (x : RecordStore) :
    (h.apply x).vdata = h.vdata ∧ (h.apply x).version = h.version ∧ (h.apply x).arenaId = h.arenaId := by
  cases x <;> exact ⟨rfl, rfl, rfl⟩

/-- A step that stores to the header of its run. -/
theorem PlainStep.store {h : RunFields} (hvdata : h.vdata = (s.header c.page).vdata)
    (hversion : h.version = (s.header c.page).version) (harena : h.arenaId = (s.header c.page).arenaId)
    (hworks : pc'.WorksWith r) (hdone : pc' ≠ .done) : PlainStep c s pc (s.setHeader c h) pc' r := by
  refine ⟨hworks, ?_, ?_, ?_, rfl, Or.inl ⟨rfl, rfl, fun heq => absurd heq hdone⟩⟩
  all_goals rw [setHeader_header, if_pos rfl]
  · exact hvdata
  · exact hversion
  · exact harena

/-- A step that only reads. -/
theorem PlainStep.silent (hworks : pc'.WorksWith r) (hdone : pc' ≠ .done) : PlainStep c s pc s pc' r :=
  ⟨hworks, rfl, rfl, rfl, rfl, Or.inl ⟨rfl, rfl, fun heq => absurd heq hdone⟩⟩

/-- The steps of a call on a run of this process. -/
theorem slotStep_plain (hversion : ¬ (s.header c.page).version < s.currentVersion)
    (hvdata : (s.header c.page).vdata = r) (hworks : pc.WorksWith r)
    (hstep : slotStep c s pc = some (s', pc')) : PlainStep c s pc s' pc' r := by
  cases pc with
  | loadUsage =>
    simp only [slotStep] at hstep
    split at hstep
    · cases hstep
      exact .silent trivial (by simp)
    · cases hkind : c.kind <;> simp only [hkind] at hstep <;> split at hstep
      all_goals
        cases hstep
        exact .silent trivial (by simp)
  | loadBytes =>
    simp only [slotStep] at hstep
    split at hstep
    all_goals
      cases hstep
      exact .silent trivial (by simp)
  | casActivate runIdx =>
    simp only [slotStep] at hstep
    split at hstep
    · cases hstep
      exact .store rfl rfl rfl (fun _ hrun => by cases hrun) (by simp)
    · cases hstep
  | casFree =>
    simp only [slotStep] at hstep
    split at hstep
    · cases hstep
      exact .store rfl rfl rfl trivial (by simp)
    · cases hstep
  | loadVdata =>
    cases hstep
    exact .silent hvdata (by simp)
  | loadVersion run =>
    simp only [slotStep, if_neg hversion] at hstep
    cases hstep
    exact .silent hworks (by simp)
  | compareVdata run tmpRun => exact hworks.elim
  | storeVdata tmpRun => exact hworks.elim
  | storeVersion => exact hworks.elim
  | reloadVdata => exact hworks.elim
  | loadElemSize run =>
    simp only [slotStep] at hstep
    split at hstep
    · cases hstep
      exact .silent trivial (by simp)
    · cases hstep
      refine .silent (fun run' hrun' => ?_) (by simp)
      rw [← Option.some.inj hrun']
      exact hworks
  | record v rest =>
    cases rest with
    | cons x rest =>
      cases hstep
      obtain ⟨hv, hver, ha⟩ := (s.header c.page).apply_rest x
      exact .store hv hver ha hworks (by simp)
    | nil =>
      simp only [slotStep] at hstep
      split at hstep
      · cases hstep
        exact .store rfl rfl rfl hworks (by simp)
      · cases hstep
        exact .silent hworks (by simp)
  | loadByte v =>
    cases hstep
    exact .silent hworks (by simp)
  | storeByte v b =>
    cases hstep
    exact .store rfl rfl rfl hworks (by simp)
  | release v =>
    cases hstep
    exact .store rfl rfl rfl hworks (by simp)
  | clear v rest =>
    cases rest with
    | cons x rest =>
      cases hstep
      obtain ⟨hv, hver, ha⟩ := (s.header c.page).apply_rest x
      exact .store hv hver ha hworks (by simp)
    | nil =>
      simp only [slotStep] at hstep
      cases hrun : v.run with
      | none =>
        simp only [hrun] at hstep
        cases hstep
        exact ⟨trivial, rfl, rfl, rfl, rfl, Or.inl ⟨rfl, rfl, fun _ => ⟨v, rfl, hrun⟩⟩⟩
      | some run =>
        simp only [hrun] at hstep
        cases hstep
        obtain rfl := hworks run hrun
        exact ⟨trivial, rfl, rfl, rfl, rfl, Or.inr ⟨v, rfl, hrun, rfl, rfl⟩⟩
  | done => cases hstep
  | lost => cases hstep

end

/-! ## The invariant -/

/-- Run `r` of the bin is created and linked within the bin. -/
structure BinLinks (h : SlotHeap) (ab : ℕ × ℕ) (linked : ℕ → Prop) : Prop where
  current : ∀ {r}, (h.bin ab).currentRun = some r → r < h.nVheaders ∧ (h.vheaders r).bin = ab
  head : ∀ {r}, (h.bin ab).runs = some r → linked r
  next : ∀ {r r'}, linked r → (h.vheaders r).next = some r' → linked r'
  member : ∀ {r}, linked r → r < h.nVheaders ∧ (h.vheaders r).bin = ab

/-- VHeader `r` describes the run on page `p`. -/
def SlotHeap.RunAt (h : SlotHeap) (r p : ℕ) : Prop :=
  r < h.nVheaders ∧ (h.vheaders r).nvmRun = blockSize * p

/-- The header on page `p` belongs to VHeader `r` of this process. -/
structure RunMatches (h : SlotHeap) (r p : ℕ) : Prop where
  vdata : (h.header p).vdata = r
  version : ¬ (h.header p).version < h.currentVersion
  elemSize : (h.vheaders r).elemSize = (h.header p).nBytes
  bin : (h.vheaders r).bin = ((h.header p).arenaId, (h.header p).nBytes / 64 - 1)

/-- The bit on NVM of a slot that no call is busy with. -/
def restBit : Option Slot → Option Bool
  | none | some ⟨_, .reserved⟩ => some false
  | some ⟨_, .activated⟩ => some true
  | some ⟨_, .busy _ _⟩ => none

/-- The runs, the bins and the calls. -/
structure BitmapRunsInv {ι : Type} (s : BitmapSys ι) : Prop where
  version : s.heap.currentVersion < 2 ^ 32
  pages : PagesOk s.trees (fun p => ∃ r, s.heap.RunAt r p) s.nextChunk
  runs : ∀ r < s.heap.nVheaders, ∃ p, s.heap.RunAt r p ∧ RunMatches s.heap r p
  bins : ∀ ab, ∃ linked, BinLinks s.heap ab linked
  lock : LockInv s.call (fun k => (s.slot k).2) (fun p => ∃ r, s.heap.RunAt r p) s.heap s.pc
  worksWith : ∀ k, (s.pc k).WorksWith (s.slot k).1

/-- What holds between the steps of the threads. -/
structure BitmapSysInv {ι : Type} (s : BitmapSys ι) : Prop extends BitmapRunsInv s where
  volatile : ∀ r < s.heap.nVheaders, ∀ i, (s.heap.vheaders r).bitmap i = (s.slots r i).isSome
  account : ∀ {r i x}, s.slots r i = some x → r < s.heap.nVheaders ∧
    i < slotsPerRun (s.heap.vheaders r).elemSize ∧
    x.ptr = (s.heap.vheaders r).nvmRun + headerSize + (s.heap.vheaders r).elemSize * i
  rest : ∀ {r i v}, r < s.heap.nVheaders → restBit (s.slots r i) = some v → s.heap.nvmBit r i = v
  busy : ∀ {k}, s.pc k ≠ .done → ∃ active, s.slots (s.slot k).1 (s.slot k).2 =
      some ⟨(s.call k).ptr, .busy (s.call k).kind active⟩ ∧
    ((s.pc k).Marked → s.heap.nvmBit (s.slot k).1 (s.slot k).2 = decide ((s.call k).kind = .activate)) ∧
    (¬ (s.pc k).Marked → s.heap.nvmBit (s.slot k).1 (s.slot k).2 = active)
  caller : ∀ {r i ptr kind active}, s.slots r i = some ⟨ptr, .busy kind active⟩ →
    ∃ k, s.pc k ≠ .done ∧ s.slot k = (r, i)
  alone : ∀ {j k}, s.pc j ≠ .done → s.pc k ≠ .done → s.slot j = s.slot k → j = k

section

variable {ι : Type} {s s' : BitmapSys ι} {h h' : SlotHeap} {ab : ℕ × ℕ} {linked : ℕ → Prop} {r i : ℕ}

/-- A step that leaves the links alone. -/
theorem BinLinks.congr (hb : BinLinks h ab linked)
    (hcurrent : (h'.bin ab).currentRun = (h.bin ab).currentRun)
    (hruns : (h'.bin ab).runs = (h.bin ab).runs) (hn : h.nVheaders ≤ h'.nVheaders)
    (hnext : ∀ q, linked q → (h'.vheaders q).next = (h.vheaders q).next)
    (hbin : ∀ q < h.nVheaders, (h'.vheaders q).bin = (h.vheaders q).bin) : BinLinks h' ab linked := by
  refine ⟨fun {q} hq => ?_, fun hq => hb.head (hruns ▸ hq), fun {q q'} hq hq' => ?_, fun {q} hq => ?_⟩
  · obtain ⟨hlt, heq⟩ := hb.current (hcurrent ▸ hq)
    exact ⟨hlt.trans_le hn, (hbin q hlt).trans heq⟩
  · rw [hnext q hq] at hq'
    exact hb.next hq hq'
  · obtain ⟨hlt, heq⟩ := hb.member hq
    exact ⟨hlt.trans_le hn, (hbin q hlt).trans heq⟩

/-- `releaseSlot` changes one bit of its run, and where the run was full it may link it in. -/
theorem releaseSlot_cases (H : ℕ → ArenaRun) (b : ArenaBin) (r i : ℕ) :
    ∃ n m, releaseSlot H b r i =
        (Function.update H r { H r with bitmap := Function.update (H r).bitmap i false, nFree := n },
          { b with nFree := m }) ∨
      releaseSlot H b r i =
        (Function.update H r { H r with
          bitmap := Function.update (H r).bitmap i false, nFree := n, next := b.runs },
          { b with nFree := m, runs := some r }) := by
  refine ⟨((H r).nFree + 1) % 2 ^ 16, (b.nFree + 1) % 2 ^ 32, ?_⟩
  unfold releaseSlot
  simp only
  split
  · exact Or.inr rfl
  · exact Or.inl rfl

/-- What `arena_free` keeps of the VHeaders, and the bit that it clears. -/
theorem release_vheaders (h : SlotHeap) (r i q : ℕ) :
    ((h.release r i).vheaders q).nvmRun = (h.vheaders q).nvmRun ∧
    ((h.release r i).vheaders q).elemSize = (h.vheaders q).elemSize ∧
    ((h.release r i).vheaders q).bin = (h.vheaders q).bin ∧
    ((h.release r i).vheaders q).bitmap =
      if q = r then Function.update (h.vheaders r).bitmap i false else (h.vheaders q).bitmap := by
  unfold SlotHeap.release
  obtain ⟨n, m, heq | heq⟩ := releaseSlot_cases h.vheaders (h.bin (h.vheaders r).bin) r i
  all_goals
    simp only [heq]
    by_cases hq : q = r
    · subst hq
      simp
    · simp [hq]

/-- The end of `arena_free` keeps the links of every bin. -/
theorem BinLinks.release (hb : BinLinks h ab linked) (hr : r < h.nVheaders) :
    ∃ linked', BinLinks (h.release r i) ab linked' := by
  have hbin : ∀ q < h.nVheaders, ((h.release r i).vheaders q).bin = (h.vheaders q).bin :=
    fun q _ => (release_vheaders h r i q).2.2.1
  obtain ⟨n, m, heq | heq⟩ := releaseSlot_cases h.vheaders (h.bin (h.vheaders r).bin) r i
  · refine ⟨linked, hb.congr ?_ ?_ le_rfl (fun q _ => ?_) hbin⟩ <;>
      simp only [SlotHeap.release, heq, Function.update_apply]
    · split
      · rename_i hab
        rw [hab]
      · rfl
    · split
      · rename_i hab
        rw [hab]
      · rfl
    · split
      · rename_i hq
        rw [hq]
      · rfl
  · by_cases hab : ab = (h.vheaders r).bin
    · -- the run comes in front of the list of its bin
      subst hab
      have hbin' : (h.release r i).bin (h.vheaders r).bin =
          { h.bin (h.vheaders r).bin with nFree := m, runs := some r } := by
        simp only [SlotHeap.release, heq, Function.update_self]
      have hnext : ∀ q, ((h.release r i).vheaders q).next =
          if q = r then (h.bin (h.vheaders r).bin).runs else (h.vheaders q).next := by
        intro q
        simp only [SlotHeap.release, heq, Function.update_apply]
        split <;> rfl
      refine ⟨fun q => q = r ∨ linked q, fun {q} hq => ?_, fun {q} hq => ?_, fun {q q'} hq hq' => ?_,
        fun {q} hq => ?_⟩
      · rw [hbin'] at hq
        obtain ⟨hlt, hsame⟩ := hb.current hq
        exact ⟨hlt, (hbin q hlt).trans hsame⟩
      · rw [hbin'] at hq
        exact Or.inl (Option.some.inj hq).symm
      · rw [hnext] at hq'
        split at hq'
        · exact Or.inr (hb.head hq')
        · rename_i hne
          exact Or.inr (hb.next (hq.resolve_left hne) hq')
      · rcases hq with rfl | hq
        · exact ⟨hr, hbin q hr⟩
        · obtain ⟨hlt, hsame⟩ := hb.member hq
          exact ⟨hlt, (hbin q hlt).trans hsame⟩
    · refine ⟨linked, hb.congr ?_ ?_ le_rfl (fun q hq => ?_) hbin⟩
      · simp only [SlotHeap.release, Function.update_of_ne hab]
      · simp only [SlotHeap.release, Function.update_of_ne hab]
      · have hne : q ≠ r := by
          rintro rfl
          exact hab (hb.member hq).2.symm
        simp only [SlotHeap.release, heq, Function.update_of_ne hne]

end

/-! ## Consequences -/

section

variable {ι : Type} {s : BitmapSys ι} {h h' : SlotHeap} {r r' p q i : ℕ} {k : ι}

theorem SlotHeap.RunAt.page_unique (hp : h.RunAt r p) (hq : h.RunAt r q) : p = q := by
  have heq : blockSize * p = blockSize * q := hp.2.symm.trans hq.2
  exact Nat.eq_of_mul_eq_mul_left (by decide) heq

theorem SlotHeap.RunAt.nvmBit (hp : h.RunAt r p) : h.nvmBit r i = (h.header p).bit i := by
  unfold SlotHeap.nvmBit
  rw [hp.2, Nat.mul_div_cancel_left p (by decide)]

/-- The header of a run. -/
theorem BitmapSysInv.matches (hinv : BitmapSysInv s) (hp : s.heap.RunAt r p) :
    RunMatches s.heap r p := by
  obtain ⟨q, hq, hm⟩ := hinv.runs r hp.1
  rwa [hp.page_unique hq]

/-- A page holds one run. -/
theorem BitmapSysInv.run_unique (hinv : BitmapSysInv s) (hp : s.heap.RunAt r p)
    (hp' : s.heap.RunAt r' p) : r = r' :=
  (hinv.matches hp).vdata.symm.trans (hinv.matches hp').vdata

/-- The slots of a run have the size of its class. -/
theorem BitmapSysInv.elemSize (hinv : BitmapSysInv s) (hp : s.heap.RunAt r p) :
    ∃ b < 31, (s.heap.vheaders r).elemSize = 64 * (b + 1) := by
  obtain ⟨b, hb, hbytes⟩ := (hinv.lock.ok p ⟨r, hp⟩).bytes
  exact ⟨b, hb, (hinv.matches hp).elemSize.trans hbytes⟩

/-- The page of the pointer of an outstanding slot. -/
theorem BitmapSysInv.ptr_page (hinv : BitmapSysInv s) {x : Slot} (hx : s.slots r i = some x) :
    s.heap.RunAt r (x.ptr / blockSize) ∧
      x.ptr = blockSize * (x.ptr / blockSize) + headerSize + (s.heap.vheaders r).elemSize * i := by
  obtain ⟨hlt, hi, hptr⟩ := hinv.account hx
  obtain ⟨p, hp, -⟩ := hinv.runs r hlt
  obtain ⟨b, hb, helem⟩ := hinv.elemSize hp
  rw [hp.2] at hptr
  have hpage : x.ptr / blockSize = p := by
    rw [hptr]
    exact slot_page (by omega) hi
  rw [hpage]
  exact ⟨hp, hptr⟩

/-- The call of a thread is on the run of its slot. -/
theorem BitmapSysInv.at_call (hinv : BitmapSysInv s) (hk : s.pc k ≠ .done) :
    s.heap.RunAt (s.slot k).1 (s.call k).page := by
  obtain ⟨active, hslot, -⟩ := hinv.busy hk
  exact (hinv.ptr_page hslot).1

/-- The bitmap on NVM never leaves the volatile one. -/
theorem BitmapSysInv.nvmWithinVolatile (hinv : BitmapSysInv s) : NvmWithinVolatile s := by
  intro r hr i hbit
  rw [hinv.volatile r hr i]
  cases hslot : s.slots r i with
  | some x => rfl
  | none =>
    have hclear := hinv.rest (v := false) hr (by rw [hslot]; rfl)
    rw [hclear] at hbit
    cases hbit

/-- When no call is in flight, the bitmaps agree with the account. -/
theorem BitmapSysInv.bitmapsAgree (hinv : BitmapSysInv s) (hquiet : ∀ k, s.pc k = .done) :
    BitmapsAgree s := by
  -- no slot is busy
  have hidle : ∀ {r i x}, s.slots r i = some x → x.status = .reserved ∨ x.status = .activated := by
    rintro r i ⟨ptr, status⟩ hx
    cases status with
    | reserved => exact Or.inl rfl
    | activated => exact Or.inr rfl
    | busy kind active =>
      obtain ⟨k, hk, -⟩ := hinv.caller hx
      exact absurd (hquiet k) hk
  refine ⟨fun r hr i => ?_, fun r hr i => ?_, fun r i x hx => ?_⟩
  · rw [hinv.volatile r hr i, Option.isSome_iff_exists]
    constructor
    · rintro ⟨x, hx⟩
      exact ⟨x, hx, hidle hx⟩
    · rintro ⟨x, hx, -⟩
      exact ⟨x, hx⟩
  · cases hslot : s.slots r i with
    | none =>
      rw [hinv.rest (v := false) hr (by rw [hslot]; rfl)]
      simp
    | some x =>
      obtain ⟨ptr, status⟩ := x
      rcases hidle hslot with hst | hst <;> simp only at hst <;> subst hst
      · rw [hinv.rest (v := false) hr (by rw [hslot]; rfl)]
        simp
      · rw [hinv.rest (v := true) hr (by rw [hslot]; rfl)]
        simp
  · obtain ⟨hlt, hi, -⟩ := hinv.account hx
    obtain ⟨hat, hptr⟩ := hinv.ptr_page hx
    have hmatch := hinv.matches hat
    obtain ⟨b, hb, helem⟩ := hinv.elemSize hat
    have hslots : slotsPerRun (s.heap.vheaders r).elemSize ≤ 63 := slotsPerRun_le (by omega)
    have hoffset : x.ptr - (x.ptr / blockSize * blockSize + headerSize) =
        (s.heap.vheaders r).elemSize * i := by
      simp only [blockSize, headerSize] at hptr ⊢
      omega
    have hdiv : (s.heap.vheaders r).elemSize * i / (s.heap.vheaders r).elemSize = i :=
      Nat.mul_div_cancel_left i (by omega)
    refine ⟨hlt, ?_, ?_⟩
    · unfold SlotHeap.activateIndex
      rw [hoffset, ← hmatch.elemSize, hdiv]
      exact Nat.mod_eq_of_lt (by omega)
    · unfold SlotHeap.freeIndex
      rw [hoffset, hmatch.vdata, hdiv]

end

/-! ## A step of a call -/

section

variable {ι : Type} {s : BitmapSys ι} {c : SlotCall} {h h' : SlotHeap} {pc pc' : SlotPc} {r q i : ℕ}
  {k : ι}

/-- What no step of a call changes in the VHeaders. -/
theorem PlainStep.vheaders (hp : PlainStep c h pc h' pc' r) (q : ℕ) :
    (h'.vheaders q).nvmRun = (h.vheaders q).nvmRun ∧ (h'.vheaders q).elemSize = (h.vheaders q).elemSize ∧
      (h'.vheaders q).bin = (h.vheaders q).bin := by
  rcases hp.volatile with ⟨hsame, -⟩ | ⟨v, -, -, -, rfl⟩
  · rw [hsame]
    exact ⟨rfl, rfl, rfl⟩
  · obtain ⟨hrun, helem, hbin, -⟩ := release_vheaders h r v.runIdx q
    exact ⟨hrun, helem, hbin⟩

theorem PlainStep.runAt (hp : PlainStep c h pc h' pc' r) : h'.RunAt = h.RunAt := by
  funext q p
  unfold SlotHeap.RunAt
  rw [hp.nVheaders, (hp.vheaders q).1]

/-- A step of thread `k` seen from its run. -/
theorem BitmapSysInv.plain (hinv : BitmapSysInv s)
    (hstep : slotStep (s.call k) s.heap (s.pc k) = some (h', pc')) :
    PlainStep (s.call k) s.heap (s.pc k) h' pc' (s.slot k).1 := by
  have hmatch := hinv.matches (hinv.at_call (ne_done_of_step hstep))
  exact slotStep_plain hmatch.version hmatch.vdata (hinv.worksWith k) hstep

/-- The bits of the other slots stay. -/
theorem BitmapSysInv.nvmBit_other (hinv : BitmapSysInv s)
    (hstep : slotStep (s.call k) s.heap (s.pc k) = some (h', pc')) (hr : r < s.heap.nVheaders)
    (hne : (r, i) ≠ s.slot k) : h'.nvmBit r i = s.heap.nvmBit r i := by
  have hf := hinv.lock.facts hstep
  have hp := hinv.plain hstep
  have hat := hinv.at_call (ne_done_of_step hstep)
  obtain ⟨p, hrun, -⟩ := hinv.runs r hr
  rw [hrun.nvmBit, SlotHeap.RunAt.nvmBit (h := h') (by rw [hp.runAt]; exact hrun)]
  by_cases hpage : p = (s.call k).page
  · subst hpage
    have hsame : r = (s.slot k).1 := hinv.run_unique hrun hat
    have hidx : i ≠ (s.slot k).2 := fun heq => hne (Prod.ext hsame heq)
    rcases hf.bit_cases with ⟨-, hbit⟩ | ⟨-, -, hbit⟩
    · rw [hbit]
    · rw [hbit i, if_neg hidx]
  · rw [hf.frame p hpage]

/-- The bit of the own slot changes when its byte is stored. -/
theorem BitmapSysInv.nvmBit_own (hinv : BitmapSysInv s)
    (hstep : slotStep (s.call k) s.heap (s.pc k) = some (h', pc')) :
    (pc'.Marked → h'.nvmBit (s.slot k).1 (s.slot k).2 = decide ((s.call k).kind = .activate)) ∧
    (¬ pc'.Marked → h'.nvmBit (s.slot k).1 (s.slot k).2 = s.heap.nvmBit (s.slot k).1 (s.slot k).2) := by
  have hne := ne_done_of_step hstep
  have hf := hinv.lock.facts hstep
  have hat := hinv.at_call hne
  obtain ⟨active, -, hmarked, -⟩ := hinv.busy hne
  have hkeeps : ((s.pc k).Marked ↔ pc'.Marked) →
      h'.nvmBit (s.slot k).1 (s.slot k).2 = s.heap.nvmBit (s.slot k).1 (s.slot k).2 := by
    intro hiff
    rw [hat.nvmBit, SlotHeap.RunAt.nvmBit (h := h') (by rw [(hinv.plain hstep).runAt]; exact hat)]
    rw [hf.keeps hiff]
  refine ⟨fun hm' => ?_, fun hm' => hkeeps ⟨hf.mono, fun hm => absurd hm hm'⟩⟩
  by_cases hm : (s.pc k).Marked
  · rw [hkeeps ⟨fun _ => hm', fun _ => hm⟩, hmarked hm]
  · rw [SlotHeap.RunAt.nvmBit (h := h') (by rw [(hinv.plain hstep).runAt]; exact hat), hf.marks hm hm',
      if_pos rfl]

/-- The runs after a step of a call. -/
theorem BitmapSysInv.step_runs [DecidableEq ι] (hinv : BitmapSysInv s)
    (hstep : slotStep (s.call k) s.heap (s.pc k) = some (h', pc')) (slots : ℕ → ℕ → Option Slot) :
    BitmapRunsInv { s with heap := h', slots := slots, pc := Function.update s.pc k pc' } := by
  have hf := hinv.lock.facts hstep
  have hp := hinv.plain hstep
  have hat := hinv.at_call (ne_done_of_step hstep)
  refine ⟨hf.currentVersion ▸ hinv.version, ?_, fun r hr => ?_, fun ab => ?_, ?_, fun j => ?_⟩
  · simp only [hp.runAt]
    exact hinv.pages
  · simp only [hp.runAt]
    obtain ⟨p, hrun, hmatch⟩ := hinv.runs r (hp.nVheaders ▸ hr)
    obtain ⟨-, helem, hbin⟩ := hp.vheaders r
    refine ⟨p, hrun, ?_⟩
    by_cases hpage : p = (s.call k).page
    · subst hpage
      refine ⟨hp.vdata.trans hmatch.vdata, ?_, ?_, ?_⟩
      · rw [hp.version, hf.currentVersion]
        exact hmatch.version
      · rw [helem, hf.nBytes, hmatch.elemSize]
      · rw [hbin, hp.arenaId, hf.nBytes, hmatch.bin]
    · have hframe := hf.frame p hpage
      refine ⟨?_, ?_, ?_, ?_⟩
      · rw [hframe, hmatch.vdata]
      · rw [hframe, hf.currentVersion]
        exact hmatch.version
      · rw [helem, hframe, hmatch.elemSize]
      · rw [hbin, hframe, hmatch.bin]
  · obtain ⟨linked, hlinks⟩ := hinv.bins ab
    rcases hp.volatile with ⟨hv, hb, -⟩ | ⟨v, -, -, -, rfl⟩
    · refine ⟨linked, hlinks.congr ?_ ?_ hp.nVheaders.ge (fun q _ => ?_) fun q _ => ?_⟩
      · rw [hb]
      · rw [hb]
      · rw [hv]
      · rw [hv]
    · exact hlinks.release hat.1
  · simp only [hp.runAt]
    exact hinv.lock.step hstep
  · show (Function.update s.pc k pc' j).WorksWith _
    by_cases hj : j = k
    · subst hj
      rw [Function.update_self]
      exact hp.worksWith
    · rw [Function.update_of_ne hj]
      exact hinv.worksWith j

/-- An entry of the account after a change at one slot. -/
theorem setSlot_slots (x : Option Slot) (r' i' : ℕ) :
    (s.setSlot r i x).slots r' i' = if (r', i') = (r, i) then x else s.slots r' i' := by
  unfold BitmapSys.setSlot
  simp only [Function.update_apply, Prod.mk.injEq]
  by_cases hr : r' = r
  · subst hr
    by_cases hi : i' = i
    · simp [hi]
    · simp [hi]
  · simp [hr]

/-- A slot that no call is busy with is not the slot of thread `k`. -/
theorem BitmapSysInv.ne_slot (hinv : BitmapSysInv s) (hk : s.pc k ≠ .done) {v : Bool}
    (hrest : restBit (s.slots r i) = some v) : (r, i) ≠ s.slot k := by
  intro heq
  obtain ⟨active, hslot, -⟩ := hinv.busy hk
  rw [← heq] at hslot
  rw [hslot] at hrest
  cases hrest

variable [DecidableEq ι]

/-- A call takes a step and does not return. -/
theorem BitmapSysInv.go (hinv : BitmapSysInv s)
    (hstep : slotStep (s.call k) s.heap (s.pc k) = some (h', pc')) (hdone : pc' ≠ .done) :
    BitmapSysInv { s with heap := h', pc := Function.update s.pc k pc' } := by
  have hne := ne_done_of_step hstep
  have hp := hinv.plain hstep
  have hpcs : ∀ {j}, Function.update s.pc k pc' j ≠ .done ↔ s.pc j ≠ .done := by
    intro j
    by_cases hj : j = k
    · subst hj
      rw [Function.update_self]
      exact iff_of_true hdone hne
    · rw [Function.update_of_ne hj]
  refine ⟨hinv.step_runs hstep s.slots, fun r hr i => ?_, fun {r i x} hx => ?_, fun {r i v} hr hv => ?_,
    fun {j} hj => ?_, fun hx => ?_, fun {j l} hj hl heq => ?_⟩
  · rcases hp.volatile with ⟨hv, -⟩ | ⟨v, -, -, hret, -⟩
    · rw [hv]
      exact hinv.volatile r (hp.nVheaders ▸ hr) i
    · exact absurd hret hdone
  · obtain ⟨hrun, helem, -⟩ := hp.vheaders r
    rw [hrun, helem, hp.nVheaders]
    exact hinv.account hx
  · rw [hinv.nvmBit_other hstep (hp.nVheaders ▸ hr) (hinv.ne_slot hne hv)]
    exact hinv.rest (hp.nVheaders ▸ hr) hv
  · have hj' := hpcs.mp hj
    obtain ⟨active, hslot, hmarked, hunmarked⟩ := hinv.busy hj'
    refine ⟨active, hslot, ?_⟩
    simp only
    by_cases hjk : j = k
    · subst hjk
      obtain ⟨hown, hkeep⟩ := hinv.nvmBit_own hstep
      rw [Function.update_self]
      refine ⟨hown, fun hm => ?_⟩
      rw [hkeep hm]
      exact hunmarked fun hold => hm ((hinv.lock.facts hstep).mono hold)
    · rw [Function.update_of_ne hjk, hinv.nvmBit_other hstep (hinv.account hslot).1
        fun heq => hjk (hinv.alone hj' hne heq)]
      exact ⟨hmarked, hunmarked⟩
  · obtain ⟨j, hj, hslot⟩ := hinv.caller hx
    exact ⟨j, hpcs.mpr hj, hslot⟩
  · exact hinv.alone (hpcs.mp hj) (hpcs.mp hl) heq

/-- A call returns. -/
theorem BitmapSysInv.return (hinv : BitmapSysInv s)
    (hstep : slotStep (s.call k) s.heap (s.pc k) = some (h', .done)) {x : Option Slot}
    (hx : restBit x = some (decide ((s.call k).kind = .activate)))
    (hptr : ∀ y, x = some y → y.ptr = (s.call k).ptr)
    (hvolatile : ∀ r < s.heap.nVheaders, ∀ i, (h'.vheaders r).bitmap i =
      if (r, i) = s.slot k then x.isSome else (s.heap.vheaders r).bitmap i) :
    BitmapSysInv (BitmapSys.setSlot { s with heap := h', pc := Function.update s.pc k .done }
      (s.slot k).1 (s.slot k).2 x) := by
  have hne := ne_done_of_step hstep
  have hp := hinv.plain hstep
  obtain ⟨hown, -⟩ := hinv.nvmBit_own hstep
  obtain ⟨active, hslot, -⟩ := hinv.busy hne
  have hpcs : ∀ {j}, Function.update s.pc k .done j ≠ .done → j ≠ k ∧ s.pc j ≠ .done := by
    intro j hj
    by_cases hjk : j = k
    · subst hjk
      exact absurd (Function.update_self ..) hj
    · rw [Function.update_of_ne hjk] at hj
      exact ⟨hjk, hj⟩
  have hslots : ∀ r i, (BitmapSys.setSlot { s with heap := h', pc := Function.update s.pc k .done }
      (s.slot k).1 (s.slot k).2 x).slots r i = if (r, i) = s.slot k then x else s.slots r i :=
    fun r i => setSlot_slots (s := { s with heap := h', pc := Function.update s.pc k .done }) x r i
  refine ⟨hinv.step_runs hstep _, fun r hr i => ?_, fun {r i y} hy => ?_, fun {r i v} hr hv => ?_,
    fun {j} hj => ?_, fun {r i ptr kind act} hy => ?_, fun {j l} hj hl heq => ?_⟩
  · rw [hslots]
    show (h'.vheaders r).bitmap i = _
    have hr' : r < s.heap.nVheaders := hp.nVheaders ▸ hr
    rw [hvolatile r hr' i]
    split
    · rfl
    · exact hinv.volatile r hr' i
  · rw [hslots] at hy
    obtain ⟨hrun, helem, -⟩ := hp.vheaders r
    show r < h'.nVheaders ∧ i < slotsPerRun (h'.vheaders r).elemSize ∧
      y.ptr = (h'.vheaders r).nvmRun + headerSize + (h'.vheaders r).elemSize * i
    rw [hrun, helem, hp.nVheaders]
    split at hy
    · rename_i heq
      rw [← heq] at hslot
      rw [hptr y hy]
      exact hinv.account hslot
    · exact hinv.account hy
  · rw [hslots] at hv
    show h'.nvmBit r i = v
    split at hv
    · rename_i heq
      obtain ⟨rfl, rfl⟩ : r = (s.slot k).1 ∧ i = (s.slot k).2 := Prod.mk.inj heq
      rw [hown trivial]
      exact Option.some.inj (hx.symm.trans hv)
    · rename_i hneq
      have hr' : r < s.heap.nVheaders := hp.nVheaders ▸ hr
      rw [hinv.nvmBit_other hstep hr' hneq]
      exact hinv.rest hr' hv
  · obtain ⟨hjk, hj'⟩ := hpcs hj
    obtain ⟨act, hslotj, hmarked, hunmarked⟩ := hinv.busy hj'
    have hneq : s.slot j ≠ s.slot k := fun heq => hjk (hinv.alone hj' hne heq)
    refine ⟨act, ?_, ?_⟩
    · rw [hslots]
      exact (if_neg hneq).trans hslotj
    · show ((Function.update s.pc k .done j).Marked → h'.nvmBit (s.slot j).1 (s.slot j).2 = _) ∧
        (¬ (Function.update s.pc k .done j).Marked → h'.nvmBit (s.slot j).1 (s.slot j).2 = _)
      rw [Function.update_of_ne hjk, hinv.nvmBit_other hstep (hinv.account hslotj).1 hneq]
      exact ⟨hmarked, hunmarked⟩
  · rw [hslots] at hy
    split at hy
    · rw [hy] at hx
      cases hx
    · rename_i hneq
      obtain ⟨j, hj, hslotj⟩ := hinv.caller hy
      have hjk : j ≠ k := by
        rintro rfl
        exact hneq hslotj.symm
      exact ⟨j, by show Function.update s.pc k .done j ≠ .done; rwa [Function.update_of_ne hjk], hslotj⟩
  · exact hinv.alone (hpcs hj).2 (hpcs hl).2 heq

/-- **A step of a call keeps the invariant.** -/
theorem BitmapSysInv.step_go (hinv : BitmapSysInv s) {s' : BitmapSys ι}
    (hstep : bitmapStep s (.go k) = some s') : BitmapSysInv s' := by
  simp only [bitmapStep] at hstep
  split at hstep
  case h_1 => cases hstep
  case h_2 h' pc' hcall =>
    by_cases hdone : pc' = .done
    · subst hdone
      cases hstep
      have hp := hinv.plain hcall
      have hpcOk := hinv.lock.pcs k
      unfold BitmapSys.finish
      rcases hp.volatile with ⟨hv, -, hlast⟩ | ⟨v, hlast, hrun, -, hv⟩
      · -- the last step of an activation
        obtain ⟨v, hlast, hrun⟩ := hlast rfl
        rw [hlast] at hpcOk
        have hkind : (s.call k).kind = .activate := by
          rcases hpcOk.run with ⟨-, hkind⟩ | ⟨run, hrun', -⟩
          · exact hkind
          · rw [hrun] at hrun'
            cases hrun'
        simp only [hkind]
        refine hinv.return hcall (by rw [hkind]; rfl) (fun y hy => ?_) fun r hr i => ?_
        · rw [← Option.some.inj hy]
        · rw [hv]
          split
          · rename_i heq
            obtain ⟨active, hslot, -⟩ := hinv.busy (ne_done_of_step hcall)
            rw [← heq] at hslot
            rw [hinv.volatile r hr i, hslot]
            rfl
          · rfl
      · -- the last section of a free
        rw [hlast] at hpcOk
        have hkind : (s.call k).kind = .free := by
          rcases hpcOk.run with ⟨hrun', -⟩ | ⟨run, -, hkind, -⟩
          · rw [hrun] at hrun'
            cases hrun'
          · exact hkind
        simp only [hkind]
        refine hinv.return hcall (by rw [hkind]; rfl) (fun y hy => nomatch hy) fun r hr i => ?_
        rw [hv, (release_vheaders s.heap (s.slot k).1 v.runIdx r).2.2.2, hpcOk.runIdx]
        by_cases hr' : r = (s.slot k).1
        · rw [if_pos hr', hr', Function.update_apply]
          by_cases hi : i = (s.slot k).2
          · have hslot : ((s.slot k).1, i) = s.slot k := Prod.ext rfl hi
            rw [if_pos hi, if_pos hslot]
            rfl
          · rw [if_neg hi, if_neg fun heq => hi (congrArg Prod.snd heq)]
        · rw [if_neg hr', if_neg fun heq => hr' (congrArg Prod.fst heq)]
    · have hs' : s' = { s with heap := h', pc := Function.update s.pc k pc' } := by
        cases pc' with
        | done => exact absurd rfl hdone
        | _ => exact (Option.some.inj hstep).symm
      rw [hs']
      exact hinv.go hcall hdone

/-- A thread that is in no call begins one. -/
theorem LockInv.begin {call : ι → SlotCall} {slot : ι → ℕ × ℕ} {runs : ℕ → Prop} {pcs : ι → SlotPc}
    {c : SlotCall} (hlock : LockInv call (fun j => (slot j).2) runs h pcs) (hk : pcs k = .done)
    (hon : runs c.page ∧ c.On h c.page i) :
    LockInv (Function.update call k c) (fun j => (Function.update slot k (r, i) j).2) runs h
      (Function.update pcs k .loadUsage) := by
  have hholds : ∀ {j}, (Function.update pcs k .loadUsage j).Holds → j ≠ k ∧ (pcs j).Holds := by
    intro j hj
    by_cases hjk : j = k
    · subst hjk
      rw [Function.update_self] at hj
      exact hj.elim
    · rw [Function.update_of_ne hjk] at hj
      exact ⟨hjk, hj⟩
  refine ⟨hlock.ok, fun j hj => ?_, fun j => ?_, fun j l hj hl hpage => ?_, fun j hj => ?_,
    fun p hp hnone => hlock.free p hp fun j hj => ?_⟩
  · by_cases hjk : j = k
    · subst hjk
      simp only [Function.update_self]
      exact hon
    · simp only [Function.update_of_ne hjk] at hj ⊢
      exact hlock.on j hj
  · by_cases hjk : j = k
    · subst hjk
      simp only [Function.update_self]
      exact trivial
    · simp only [Function.update_of_ne hjk]
      exact hlock.pcs j
  · obtain ⟨hjk, hj⟩ := hholds hj
    obtain ⟨hlk, hl⟩ := hholds hl
    rw [Function.update_of_ne hjk, Function.update_of_ne hlk] at hpage
    exact hlock.one j l hj hl hpage
  · obtain ⟨hjk, hj⟩ := hholds hj
    rw [Function.update_of_ne hjk]
    exact hlock.busy j hj
  · have hjk : j ≠ k := by
      rintro rfl
      rw [hk] at hj
      exact hj.elim
    have hpage := hnone j (by rwa [Function.update_of_ne hjk])
    rwa [Function.update_of_ne hjk] at hpage

/-- **The begin of a call keeps the invariant.** -/
theorem BitmapSysInv.begin (hinv : BitmapSysInv s) (hk : s.pc k = .done) {x : Slot} {active : Bool}
    (hx : s.slots r i = some x) (hrest : restBit (some x) = some active) (kind : SlotOp)
    (link1 link2 : Option (ℕ × ℕ)) : BitmapSysInv (s.begin k r i x.ptr kind active link1 link2) := by
  obtain ⟨hlt, hi, -⟩ := hinv.account hx
  obtain ⟨hat, hptr⟩ := hinv.ptr_page hx
  have hmatch := hinv.matches hat
  have hbit : s.heap.nvmBit r i = active := hinv.rest hlt (by rw [hx, hrest])
  -- nobody is busy with the slot
  have hidle : ∀ {j}, s.pc j ≠ .done → s.slot j ≠ (r, i) := fun hj heq =>
    hinv.ne_slot hj (by rw [hx, hrest]) heq.symm
  have hpcs : ∀ {j}, Function.update s.pc k .loadUsage j ≠ .done → j = k ∨ (j ≠ k ∧ s.pc j ≠ .done) := by
    intro j hj
    by_cases hjk : j = k
    · exact Or.inl hjk
    · rw [Function.update_of_ne hjk] at hj
      exact Or.inr ⟨hjk, hj⟩
  have hslots : ∀ r' i', (s.begin k r i x.ptr kind active link1 link2).slots r' i' =
      if (r', i') = (r, i) then some ⟨x.ptr, .busy kind active⟩ else s.slots r' i' :=
    fun r' i' => setSlot_slots _ r' i'
  refine ⟨⟨hinv.version, hinv.pages, hinv.runs, hinv.bins, ?_, fun j => ?_⟩, fun r' hr' i' => ?_,
    fun {r' i' y} hy => ?_,
    fun {r' i' v} hr' hv => ?_, fun {j} hj => ?_, fun {r' i' ptr kind' act} hy => ?_,
    fun {j l} hj hl heq => ?_⟩
  · refine hinv.lock.begin hk ⟨⟨r, hat⟩, ?_, ?_⟩
    · show i < slotsPerRun (s.heap.header (x.ptr / blockSize)).nBytes
      rw [← hmatch.elemSize]
      exact hi
    · show x.ptr = 4096 * (x.ptr / blockSize) + 64 + (s.heap.header (x.ptr / blockSize)).nBytes * i
      rw [← hmatch.elemSize]
      exact hptr
  · show (Function.update s.pc k .loadUsage j).WorksWith (Function.update s.slot k (r, i) j).1
    by_cases hjk : j = k
    · subst hjk
      rw [Function.update_self, Function.update_self]
      exact True.intro
    · rw [Function.update_of_ne hjk, Function.update_of_ne hjk]
      exact hinv.worksWith j
  · rw [hslots]
    show (s.heap.vheaders r').bitmap i' = _
    rw [hinv.volatile r' hr' i']
    split
    · rename_i heq
      obtain ⟨rfl, rfl⟩ := Prod.mk.inj heq
      rw [hx]
      rfl
    · rfl
  · rw [hslots] at hy
    split at hy
    · rename_i heq
      obtain ⟨rfl, rfl⟩ := Prod.mk.inj heq
      cases hy
      have hold := hinv.account hx
      exact hold
    · exact hinv.account hy
  · rw [hslots] at hv
    split at hv
    · cases hv
    · exact hinv.rest hr' hv
  · rcases hpcs hj with rfl | ⟨hjk, hj'⟩
    · refine ⟨active, ?_, ?_⟩
      · rw [hslots]
        simp only [BitmapSys.begin, Function.update_self, if_pos]
      · simp only [BitmapSys.begin, Function.update_self]
        exact ⟨fun hm => hm.elim, fun _ => hbit⟩
    · obtain ⟨act, hslot, hbits⟩ := hinv.busy hj'
      refine ⟨act, ?_, ?_⟩
      · rw [hslots]
        simp only [BitmapSys.begin, Function.update_of_ne hjk]
        exact (if_neg (hidle hj')).trans hslot
      · simp only [BitmapSys.begin, Function.update_of_ne hjk]
        exact hbits
  · rw [hslots] at hy
    split at hy
    · rename_i heq
      refine ⟨k, ?_, ?_⟩
      · simp [BitmapSys.begin]
      · simp only [BitmapSys.begin, Function.update_self]
        exact heq.symm
    · obtain ⟨j, hj, hslot⟩ := hinv.caller hy
      have hjk : j ≠ k := by
        rintro rfl
        exact hj hk
      refine ⟨j, ?_, ?_⟩
      · simp only [BitmapSys.begin, Function.update_of_ne hjk]
        exact hj
      · simp only [BitmapSys.begin, Function.update_of_ne hjk]
        exact hslot
  · have hslot : Function.update s.slot k (r, i) j = Function.update s.slot k (r, i) l := heq
    rcases hpcs hj with rfl | ⟨hjk, hj'⟩ <;> rcases hpcs hl with rfl | ⟨hlk, hl'⟩
    · rfl
    · rw [Function.update_self, Function.update_of_ne hlk] at hslot
      exact absurd hslot.symm (hidle hl')
    · rw [Function.update_self, Function.update_of_ne hjk] at hslot
      exact absurd hslot (hidle hj')
    · rw [Function.update_of_ne hjk, Function.update_of_ne hlk] at hslot
      exact hinv.alone hj' hl' hslot

end

/-! ## A new run -/

section

variable {ι : Type} {s : BitmapSys ι} {h h' : SlotHeap} {r p a b nBytes i : ℕ} {k : ι}

/-- A change that leaves the headers of the runs and the sizes in the VHeaders alone. -/
theorem LockInv.frame {call : ι → SlotCall} {slot : ι → ℕ} {runs : ℕ → Prop} {pcs : ι → SlotPc}
    (hlock : LockInv call slot runs h pcs) (hframe : ∀ q, runs q → h'.header q = h.header q)
    (hversion : h'.currentVersion = h.currentVersion) (hn : h.nVheaders ≤ h'.nVheaders)
    (hold : ∀ r < h.nVheaders, (h'.vheaders r).elemSize = (h.vheaders r).elemSize) :
    LockInv call slot runs h' pcs := by
  have hpage : ∀ {j}, pcs j ≠ .done → h'.header (call j).page = h.header (call j).page :=
    fun hj => hframe _ (hlock.on _ hj).1
  refine ⟨fun q hq => ?_, fun j hj => ?_, fun j => ?_, hlock.one, fun j hj => ?_, fun q hq hnone => ?_⟩
  · obtain ⟨hmod, harena, hclass, husage, hvdata⟩ := hlock.ok q hq
    have heq := hframe q hq
    refine ⟨hmod, ?_, ?_, ?_, ?_⟩ <;> rw [heq]
    · exact harena
    · exact hclass
    · exact husage
    · rw [hversion]
      intro hcurrent
      obtain ⟨hlt, hsize⟩ := hvdata hcurrent
      exact ⟨hlt.trans_le hn, by rw [hold _ hlt, hsize]⟩
  · obtain ⟨hrun, hlt, hptr⟩ := hlock.on j hj
    refine ⟨hrun, ?_, ?_⟩ <;> rw [hpage hj]
    · exact hlt
    · exact hptr
  · by_cases hj : pcs j = .done
    · rw [hj]
      trivial
    · have heq := hpage hj
      exact (hlock.pcs j).congr hn hold (by rw [heq]) fun _ => by rw [heq]; exact ⟨rfl, rfl⟩
  · have hdone : pcs j ≠ .done := by
      intro heq
      rw [heq] at hj
      exact hj
    rw [hpage hdone]
    exact hlock.busy j hj
  · rw [hframe q hq]
    exact hlock.free q hq hnone

/-- A run that no call holds. -/
theorem LockInv.add {call : ι → SlotCall} {slot : ι → ℕ} {runs : ℕ → Prop} {pcs : ι → SlotPc}
    (hlock : LockInv call slot runs h pcs) (hok : RunFields.Ok h p)
    (hstate : (h.header p).state = usageRun + stateInitialized) :
    LockInv call slot (fun q => q = p ∨ runs q) h pcs where
  ok := by
    rintro q (rfl | hq)
    · exact hok
    · exact hlock.ok q hq
  on j hj := ⟨Or.inr (hlock.on j hj).1, (hlock.on j hj).2⟩
  pcs := hlock.pcs
  one := hlock.one
  busy := hlock.busy
  free := by
    rintro q (rfl | hq) hnone
    · exact hstate
    · exact hlock.free q hq hnone

/-- The size class of a request. -/
structure RequestClass (b nBytes : ℕ) : Prop where
  lt : b < 31
  bytes : nBytes = 64 * (b + 1)

theorem sizeClass_roundUp {n : ℕ} (hn : 1 ≤ n) (hsmall : n ≤ sclassSmallMax) :
    RequestClass (roundUp n 64 / 64 - 1) (roundUp n 64) := by
  simp only [sclassSmallMax, blockSize] at hsmall
  unfold roundUp
  split <;> exact ⟨by omega, by omega⟩

/-- A run is created on a page that was free and put into its bin. -/
theorem BitmapSysInv.newRun (hinv : BitmapSysInv s) {trees : ℕ → SearchTree ArenaBlock} {n : ℕ}
    (hpages : PagesOk trees (fun q => q = p ∨ ∃ r, s.heap.RunAt r q) n)
    (hfresh : ¬ ∃ r, s.heap.RunAt r p) (hmod : p % 1024 ≠ 0) (ha : a < initialArenas)
    (hclass : RequestClass b nBytes) :
    BitmapSysInv (BitmapSys.newRun { s with trees := trees, nextChunk := n } a b nBytes
      (blockSize * p)) := by
  set s' := BitmapSys.newRun { s with trees := trees, nextChunk := n } a b nBytes
    (blockSize * p) with hs'
  have hheader : ∀ q, s'.heap.header q =
      if q = p then newRunFields a nBytes s.heap.nVheaders s.heap.currentVersion
      else s.heap.header q := by
    intro q
    simp only [hs', BitmapSys.newRun, Nat.mul_div_cancel_left p (show 0 < blockSize by decide),
      Function.update_apply]
  have hn : s'.heap.nVheaders = s.heap.nVheaders + 1 := rfl
  have hnew : s'.heap.vheaders s.heap.nVheaders =
      freshRun a b nBytes (blockSize * p) (s.heap.vheaders s.heap.nVheaders) := Function.update_self ..
  have hold : ∀ r < s.heap.nVheaders, s'.heap.vheaders r = s.heap.vheaders r :=
    fun r hr => Function.update_of_ne hr.ne ..
  have hrunAt : ∀ r q, s'.heap.RunAt r q ↔ (r = s.heap.nVheaders ∧ q = p) ∨ s.heap.RunAt r q := by
    intro r q
    unfold SlotHeap.RunAt
    rw [hn]
    rcases lt_trichotomy r s.heap.nVheaders with hlt | rfl | hgt
    · rw [hold r hlt]
      simp [hlt, hlt.ne, hlt.trans (Nat.lt_succ_self _)]
    · rw [hnew]
      simp [freshRun, eq_comm]
    · simp [hgt.ne', not_lt.mpr hgt.le, Nat.not_lt.mpr hgt]
  have hruns : (fun q => ∃ r, s'.heap.RunAt r q) = fun q => q = p ∨ ∃ r, s.heap.RunAt r q := by
    funext q
    simp only [hrunAt, exists_or, exists_eq_left]
  have hversion : s'.heap.currentVersion = s.heap.currentVersion := rfl
  have hcurrent : s.heap.currentVersion % 2 ^ 32 = s.heap.currentVersion :=
    Nat.mod_eq_of_lt hinv.version
  obtain ⟨hlt31, hbytes⟩ := hclass
  have hok : RunFields.Ok s'.heap p := by
    have hp := hheader p
    rw [if_pos rfl] at hp
    refine ⟨hmod, ?_, ⟨b, hlt31, ?_⟩, ?_, fun _ => ?_⟩ <;> rw [hp]
    · exact ha
    · exact hbytes
    · show getUsage (usageRun + stateInitialized) = usageRun
      decide
    · refine ⟨Nat.lt_succ_self _, ?_⟩
      show (s'.heap.vheaders s.heap.nVheaders).elemSize = nBytes
      rw [hnew]
      rfl
  have hne : ∀ {r q}, s.heap.RunAt r q → q ≠ p := by
    rintro r q hq rfl
    exact hfresh ⟨r, hq⟩
  have hlast : s'.heap.RunAt s.heap.nVheaders p := (hrunAt _ _).mpr (Or.inl ⟨rfl, rfl⟩)
  have hcases : ∀ {r}, r < s'.heap.nVheaders → r = s.heap.nVheaders ∨ r < s.heap.nVheaders :=
    fun hr => (Nat.lt_succ_iff_lt_or_eq.mp hr).symm
  have hbits : ∀ r < s.heap.nVheaders, ∀ i, s'.heap.nvmBit r i = s.heap.nvmBit r i := by
    intro r hr i
    obtain ⟨q, hq, -⟩ := hinv.runs r hr
    rw [hq.nvmBit, SlotHeap.RunAt.nvmBit ((hrunAt r q).mpr (Or.inr hq)), hheader, if_neg (hne hq)]
  have hnone : ∀ i, s.slots s.heap.nVheaders i = none := by
    intro i
    cases hx : s.slots s.heap.nVheaders i with
    | none => rfl
    | some x => exact absurd (hinv.account hx).1 (lt_irrefl _)
  refine ⟨⟨hinv.version, ?_, fun r hr => ?_, fun ab => ?_, ?_, hinv.worksWith⟩, fun r hr i => ?_,
    fun {r i x} hx => ?_, fun {r i v} hr hv => ?_, fun {j} hj => ?_, hinv.caller, hinv.alone⟩
  · rw [hruns]
    exact hpages
  · rcases hcases hr with rfl | hlt
    · refine ⟨p, hlast, ?_, ?_, ?_, ?_⟩
      · rw [hheader, if_pos rfl]
        rfl
      · rw [hheader, if_pos rfl, hversion]
        show ¬ s.heap.currentVersion % 2 ^ 32 < s.heap.currentVersion
        rw [hcurrent]
        exact lt_irrefl _
      · rw [hheader, if_pos rfl, hnew]
        rfl
      · rw [hheader, if_pos rfl, hnew]
        show (a, b) = (a, nBytes / 64 - 1)
        rw [hbytes, Nat.mul_div_cancel_left _ (by decide), Nat.add_sub_cancel]
    · obtain ⟨q, hq, hvdata, hver, helem, hbin⟩ := hinv.runs r hlt
      refine ⟨q, (hrunAt r q).mpr (Or.inr hq), ?_, ?_, ?_, ?_⟩ <;> rw [hheader, if_neg (hne hq)]
      · exact hvdata
      · exact hver
      · rw [hold r hlt, helem]
      · rw [hold r hlt, hbin]
  · obtain ⟨linked, hlinks⟩ := hinv.bins ab
    have hnext : ∀ q, linked q → (s'.heap.vheaders q).next = (s.heap.vheaders q).next := by
      intro q hq
      rw [hold q (hlinks.member hq).1]
    have hbin : ∀ q < s.heap.nVheaders, (s'.heap.vheaders q).bin = (s.heap.vheaders q).bin := by
      intro q hq
      rw [hold q hq]
    by_cases hab : ab = (a, b)
    · subst hab
      have hbin' : s'.heap.bin (a, b) = addRun (s.heap.bin (a, b)) s.heap.nVheaders nBytes :=
        Function.update_self ..
      refine ⟨linked, fun {q} hq => ?_, fun hq => ?_, fun {q q'} hq hq' => ?_, fun {q} hq => ?_⟩
      · rw [hbin'] at hq
        cases hq
        refine ⟨hlast.1, ?_⟩
        rw [hnew]
        rfl
      · rw [hbin'] at hq
        exact hlinks.head hq
      · rw [hnext q hq] at hq'
        exact hlinks.next hq hq'
      · obtain ⟨hlt, hsame⟩ := hlinks.member hq
        exact ⟨hlt.trans (Nat.lt_succ_self _), (hbin q hlt).trans hsame⟩
    · have hbin' : s'.heap.bin ab = s.heap.bin ab := Function.update_of_ne hab ..
      exact ⟨linked, hlinks.congr (by rw [hbin']) (by rw [hbin']) (Nat.le_succ _) hnext hbin⟩
  · rw [hruns]
    have hframe : LockInv s'.call (fun k => (s'.slot k).2) (fun q => ∃ r, s.heap.RunAt r q) s'.heap
        s'.pc := by
      refine hinv.lock.frame (fun q hq => ?_) rfl (Nat.le_succ _) fun r hr => ?_
      · obtain ⟨_, hq⟩ := hq
        rw [hheader, if_neg (hne hq)]
      · rw [hold r hr]
    refine hframe.add hok ?_
    rw [hheader, if_pos rfl]
    rfl
  · show (s'.heap.vheaders r).bitmap i = (s.slots r i).isSome
    rcases hcases hr with rfl | hlt
    · rw [hnone, hnew]
      rfl
    · rw [hold r hlt]
      exact hinv.volatile r hlt i
  · obtain ⟨hlt, hi, hptr⟩ := hinv.account hx
    refine ⟨hlt.trans (Nat.lt_succ_self _), ?_, ?_⟩ <;> rw [hold r hlt]
    · exact hi
    · exact hptr
  · rcases hcases hr with rfl | hlt
    · have hv' : restBit (s.slots s.heap.nVheaders i) = some v := hv
      rw [hnone] at hv'
      rw [hlast.nvmBit, hheader, if_pos rfl, ← Option.some.inj hv']
      exact Nat.zero_testBit _
    · rw [hbits r hlt]
      exact hinv.rest hlt hv
  · obtain ⟨active, hslot, hmarks⟩ := hinv.busy hj
    refine ⟨active, hslot, ?_⟩
    show ((s.pc j).Marked → s'.heap.nvmBit (s.slot j).1 (s.slot j).2 = _) ∧
      (¬ (s.pc j).Marked → s'.heap.nvmBit (s.slot j).1 (s.slot j).2 = _)
    rw [hbits _ (hinv.account hslot).1]
    exact hmarks

/-! ## The sections of a reservation -/

/-- A section that changes the bins and the bitmaps, and reserves at most free slots. -/
theorem BitmapSysInv.section (hinv : BitmapSysInv s) {slots : ℕ → ℕ → Option Slot}
    (hheader : h'.header = s.heap.header) (hversion : h'.currentVersion = s.heap.currentVersion)
    (hn : h'.nVheaders = s.heap.nVheaders)
    (hfields : ∀ q, (h'.vheaders q).nvmRun = (s.heap.vheaders q).nvmRun ∧
      (h'.vheaders q).elemSize = (s.heap.vheaders q).elemSize ∧
      (h'.vheaders q).bin = (s.heap.vheaders q).bin)
    (hbins : ∀ ab, ∃ linked, BinLinks h' ab linked)
    (hvolatile : ∀ r < s.heap.nVheaders, ∀ i, (h'.vheaders r).bitmap i = (slots r i).isSome)
    (hslots : ∀ r i, slots r i = s.slots r i ∨ (s.slots r i = none ∧ r < s.heap.nVheaders ∧
      i < slotsPerRun (s.heap.vheaders r).elemSize ∧ slots r i = some ⟨(s.heap.vheaders r).nvmRun +
        headerSize + (s.heap.vheaders r).elemSize * i, .reserved⟩)) :
    BitmapSysInv { s with heap := h', slots := slots } := by
  have hrunAt : h'.RunAt = s.heap.RunAt := by
    funext r q
    unfold SlotHeap.RunAt
    rw [hn, (hfields r).1]
  have hbit : ∀ r i, h'.nvmBit r i = s.heap.nvmBit r i := by
    intro r i
    unfold SlotHeap.nvmBit
    rw [hheader, (hfields r).1]
  refine ⟨⟨hversion ▸ hinv.version, ?_, fun r hr => ?_, hbins, ?_, hinv.worksWith⟩, fun r hr i => ?_,
    fun {r i x} hx => ?_, fun {r i v} hr hv => ?_, fun {j} hj => ?_, fun {r i ptr kind act} hx => ?_,
    hinv.alone⟩
  · simp only [hrunAt]
    exact hinv.pages
  · simp only [hrunAt]
    obtain ⟨p, hp, hvdata, hver, helem, hbin⟩ := hinv.runs r (hn ▸ hr)
    refine ⟨p, hp, ?_, ?_, ?_, ?_⟩ <;> simp only [hheader, hversion, (hfields r).2.1, (hfields r).2.2]
    · exact hvdata
    · exact hver
    · exact helem
    · exact hbin
  · simp only [hrunAt]
    exact hinv.lock.frame (fun q _ => by rw [hheader]) hversion hn.ge fun r _ => (hfields r).2.1
  · exact hvolatile r (hn ▸ hr) i
  · simp only [hn, (hfields r).1, (hfields r).2.1]
    rcases hslots r i with hsame | ⟨-, hr, hi, hnew⟩
    · exact hinv.account (hsame.symm.trans hx)
    · obtain rfl := Option.some.inj (hnew.symm.trans hx)
      exact ⟨hr, hi, rfl⟩
  · rw [hbit]
    rcases hslots r i with hsame | ⟨hnone, -, -, hnew⟩
    · exact hinv.rest (hn ▸ hr) (by rw [← hsame]; exact hv)
    · -- a reserved slot is not set on NVM, as it was not when it was free
      have hv' : restBit (slots r i) = some v := hv
      rw [hnew] at hv'
      refine hinv.rest (hn ▸ hr) ?_
      rw [hnone]
      exact hv'
  · obtain ⟨active, hslot, hmarks⟩ := hinv.busy hj
    refine ⟨active, ?_, ?_⟩
    · rcases hslots (s.slot j).1 (s.slot j).2 with hsame | ⟨hnone, -⟩
      · exact hsame.trans hslot
      · rw [hslot] at hnone
        cases hnone
    · simp only [hbit]
      exact hmarks
  · rcases hslots r i with hsame | ⟨-, -, -, hnew⟩
    · exact hinv.caller (hsame.symm.trans hx)
    · cases hnew.symm.trans hx

/-- The links after the selection of a run from the bin. -/
theorem BinLinks.selectRun {linked : ℕ → Prop} {bin : ArenaBin} (hlinks : BinLinks h (a, b) linked)
    (hsel : NvmMalloc.selectRun h.vheaders (h.bin (a, b)) = some (r, bin)) :
    (r < h.nVheaders ∧ (h.vheaders r).bin = (a, b)) ∧
      BinLinks { h with bin := Function.update h.bin (a, b) bin } (a, b) linked := by
  have hpop : popRun h.vheaders (h.bin (a, b)) = some (r, bin) →
      (r < h.nVheaders ∧ (h.vheaders r).bin = (a, b)) ∧
        BinLinks { h with bin := Function.update h.bin (a, b) bin } (a, b) linked := by
    intro hpop
    unfold popRun at hpop
    cases hruns : (h.bin (a, b)).runs with
    | none =>
      rw [hruns] at hpop
      cases hpop
    | some r' =>
      rw [hruns] at hpop
      cases hpop
      have hr := hlinks.head hruns
      refine ⟨hlinks.member hr, fun {q} hq => ?_, fun {q} hq => ?_, hlinks.next, hlinks.member⟩
      · simp only [Function.update_self] at hq
        cases hq
        exact hlinks.member hr
      · simp only [Function.update_self] at hq
        exact hlinks.next hr hq
  unfold NvmMalloc.selectRun at hsel
  cases hcur : (h.bin (a, b)).currentRun with
  | none =>
    rw [hcur] at hsel
    exact hpop hsel
  | some r' =>
    rw [hcur] at hsel
    simp only at hsel
    split at hsel
    · exact hpop hsel
    · cases hsel
      refine ⟨hlinks.current hcur, ?_⟩
      rw [Function.update_eq_self]
      exact hlinks

/-- **The selection of a run keeps the invariant**, and the run belongs to the bin. -/
theorem BitmapSysInv.selectRun (hinv : BitmapSysInv s) {s' : BitmapSys ι} (ha : a < initialArenas)
    (hclass : RequestClass b nBytes) (hsel : s.selectRun a b nBytes = some (r, s')) :
    BitmapSysInv s' ∧ s'.slots = s.slots ∧ r < s'.heap.nVheaders ∧
    (s'.heap.vheaders r).bin = (a, b) := by
  unfold BitmapSys.selectRun at hsel
  split at hsel
  · obtain ⟨⟨blk, s₁⟩, htake, heq⟩ := Option.map_eq_some_iff.mp hsel
    obtain ⟨rfl, rfl⟩ := Prod.mk.inj heq
    obtain ⟨hs₁, hpages, hhand⟩ := hinv.pages.takeBlock htake
    obtain ⟨p, trees, hcut, hfresh, hmod, hpages'⟩ := hpages.cutPage (a := a) hhand
    simp only [hcut]
    have hnew := hinv.newRun hpages' hfresh hmod ha hclass
    rw [hs₁]
    refine ⟨hnew, rfl, Nat.lt_succ_self _, ?_⟩
    simp only [BitmapSys.newRun, Function.update_self]
    rfl
  · obtain ⟨⟨r', bin⟩, hrun, heq⟩ := Option.map_eq_some_iff.mp hsel
    obtain ⟨rfl, rfl⟩ := Prod.mk.inj heq
    obtain ⟨linked, hlinks⟩ := hinv.bins (a, b)
    obtain ⟨hmember, hlinks'⟩ := hlinks.selectRun hrun
    refine ⟨?_, rfl, hmember⟩
    refine hinv.section rfl rfl rfl (fun _ => ⟨rfl, rfl, rfl⟩) (fun ab => ?_) hinv.volatile
      fun _ _ => Or.inl rfl
    by_cases hab : ab = (a, b)
    · subst hab
      exact ⟨linked, hlinks'⟩
    · obtain ⟨linked₁, hlinks₁⟩ := hinv.bins ab
      refine ⟨linked₁, hlinks₁.congr ?_ ?_ le_rfl (fun _ _ => rfl) fun _ _ => rfl⟩
      · simp only [Function.update_of_ne hab]
      · simp only [Function.update_of_ne hab]

/-- A slot whose bit is clear is not outstanding. -/
theorem BitmapSysInv.slot_free (hinv : BitmapSysInv s) (hr : r < s.heap.nVheaders) {j : ℕ}
    (hclear : (s.heap.vheaders r).bitmap j = false) : s.slots r j = none := by
  have hvol := hinv.volatile r hr j
  rw [hclear] at hvol
  exact Option.not_isSome_iff_eq_none.mp (by rw [← hvol]; exact Bool.false_ne_true)

/-- **Taking a slot keeps the invariant.** -/
theorem BitmapSysInv.takeSlot (hinv : BitmapSysInv s) (hr : r < s.heap.nVheaders)
    (hbin : (s.heap.vheaders r).bin = (a, b)) (hclass : RequestClass b nBytes) :
    BitmapSysInv (s.takeSlot a b nBytes r) := by
  obtain ⟨p, hp, hmatch⟩ := hinv.runs r hr
  -- the run of the bin has slots of the requested size
  have helem : (s.heap.vheaders r).elemSize = nBytes := by
    obtain ⟨b', hb', hbytes⟩ := (hinv.lock.ok p ⟨r, hp⟩).bytes
    have hidx : (s.heap.header p).nBytes / 64 - 1 = b := congrArg Prod.snd (hmatch.bin.symm.trans hbin)
    have hclass' := hclass.bytes
    rw [hmatch.elemSize]
    omega
  refine hinv.section rfl rfl rfl (fun q => ?_) (fun ab => ?_) (fun r' hr' i => ?_) fun r' i => ?_
  · simp only [NvmMalloc.takeSlot, Function.update_apply]
    split
    · rename_i hq
      rw [hq]
      exact ⟨rfl, rfl, rfl⟩
    · exact ⟨rfl, rfl, rfl⟩
  · obtain ⟨linked, hlinks⟩ := hinv.bins ab
    have hfields : ∀ q, ((NvmMalloc.takeSlot s.heap.vheaders (s.heap.bin (a, b)) r nBytes).2.1 q).next =
        (s.heap.vheaders q).next ∧
        ((NvmMalloc.takeSlot s.heap.vheaders (s.heap.bin (a, b)) r nBytes).2.1 q).bin =
        (s.heap.vheaders q).bin := by
      intro q
      simp only [NvmMalloc.takeSlot, Function.update_apply]
      split
      · rename_i hq
        rw [hq]
        exact ⟨rfl, rfl⟩
      · exact ⟨rfl, rfl⟩
    refine ⟨linked, hlinks.congr ?_ ?_ le_rfl (fun q _ => (hfields q).1) fun q _ => (hfields q).2⟩
    all_goals
      by_cases hab : ab = (a, b)
      · subst hab
        simp only [Function.update_self, NvmMalloc.takeSlot]
      · simp only [Function.update_of_ne hab]
  · have hvol := hinv.volatile r' hr' i
    cases hslot : firstClear (s.heap.vheaders r).bitmap (slotsPerRun nBytes) with
    | none =>
      simp only [NvmMalloc.takeSlot, hslot, Function.update_apply]
      split
      · rename_i hq
        subst hq
        exact hvol
      · exact hvol
    | some j =>
      simp only [NvmMalloc.takeSlot, hslot, Function.update_apply]
      by_cases hq : r' = r
      · subst hq
        simp only [if_pos]
        by_cases hij : i = j
        · simp [hij]
        · simp only [Function.update_of_ne hij]
          exact hvol
      · simp only [if_neg hq]
        exact hvol
  · cases hslot : firstClear (s.heap.vheaders r).bitmap (slotsPerRun nBytes) with
    | none => exact Or.inl (by simp only [NvmMalloc.takeSlot, hslot])
    | some j =>
      obtain ⟨hj, hclear⟩ := firstClear_some hslot
      have hnone := hinv.slot_free hr hclear
      simp only [NvmMalloc.takeSlot, hslot]
      by_cases hq : r' = r
      · subst hq
        rw [Function.update_self]
        by_cases hij : i = j
        · subst hij
          rw [Function.update_self, helem]
          exact Or.inr ⟨hnone, hr, hj, rfl⟩
        · rw [Function.update_of_ne hij]
          exact Or.inl rfl
      · rw [Function.update_of_ne hq]
        exact Or.inl rfl

/-- **A reservation keeps the invariant.** -/
theorem BitmapSysInv.reserve (hinv : BitmapSysInv s) {s' : BitmapSys ι} {n : ℕ} (ha : a < initialArenas)
    (hn : 1 ≤ n) (hsmall : n ≤ sclassSmallMax) (hstep : s.reserve a n = some s') : BitmapSysInv s' := by
  have hclass := sizeClass_roundUp hn hsmall
  obtain ⟨⟨r, s₁⟩, hsel, rfl⟩ := Option.map_eq_some_iff.mp hstep
  obtain ⟨hinv₁, -, hr, hbin⟩ := hinv.selectRun ha hclass hsel
  exact hinv₁.takeSlot hr hbin hclass

end

/-! ## Every run -/

section

variable {ι : Type} {s s' : BitmapSys ι}

/-- The start. -/
theorem BitmapSys.Init.inv (hinit : s.Init) : BitmapSysInv s := by
  have hnone : ∀ r, ¬ r < s.heap.nVheaders := by
    rw [hinit.nVheaders]
    exact Nat.not_lt_zero
  have hnoRun : ∀ p, ¬ ∃ r, s.heap.RunAt r p := fun p ⟨r, hr⟩ => hnone r hr.1
  have hdone : ∀ {k}, ¬ s.pc k ≠ .done := fun {k} hk => hk (hinit.pc k)
  have hmem : ∀ {a b}, b ∈ (s.trees a).toList → a < initialArenas ∧
      b = ⟨a * chunkSize + blockSize, chunkSize / blockSize - 1, a⟩ := by
    intro a b hb
    rw [hinit.trees a] at hb
    split at hb
    · rename_i ha
      exact ⟨ha, by simpa [SearchTree.treeAdd] using hb⟩
    · simp at hb
  have howns : ∀ {o p}, OwnsPage s.trees (fun p => ∃ r, s.heap.RunAt r p) o p →
      ∃ a < initialArenas, o = .block a ⟨a * chunkSize + blockSize, chunkSize / blockSize - 1, a⟩ ∧
        1024 * a + 1 ≤ p ∧ p < 1024 * a + 1024 := by
    intro o p ho
    cases o with
    | run => exact absurd ho (hnoRun p)
    | block a b =>
      obtain ⟨hb, q, hq, hlo, hhi⟩ := ho
      obtain ⟨ha, rfl⟩ := hmem hb
      simp only [chunkSize, blockSize] at hq hhi
      exact ⟨a, ha, rfl, by omega, by omega⟩
  refine ⟨⟨by rw [hinit.version]; decide, ⟨fun a => ?_, fun {a b} hb => ?_, fun o o' p ho ho' => ?_,
    fun {o p} ho => ?_⟩, fun r hr => absurd hr (hnone r), fun ab => ⟨fun _ => False, ?_⟩, ?_,
    fun k => ?_⟩,
    fun r hr => absurd hr (hnone r), fun {r i x} hx => ?_, fun {r i v} hr => absurd hr (hnone r),
    fun hk => absurd hk hdone, fun {r i ptr kind act} hx => ?_, fun hk => absurd hk hdone⟩
  · rw [hinit.trees a]
    split <;> simp [SearchTree.treeAdd]
  · obtain ⟨-, rfl⟩ := hmem hb
    exact ⟨1024 * a + 1, by simp only [chunkSize, blockSize]; omega⟩
  · obtain ⟨a, -, rfl, hlo, hhi⟩ := howns ho
    obtain ⟨a', -, rfl, hlo', hhi'⟩ := howns ho'
    have heq : a = a' := by omega
    rw [heq]
  · obtain ⟨a, ha, -, hlo, hhi⟩ := howns ho
    rw [hinit.nextChunk]
    omega
  · refine ⟨fun hq => ?_, fun hq => ?_, fun hno => hno.elim, fun hno => hno.elim⟩
    · rw [hinit.bins] at hq
      cases hq
    · rw [hinit.bins] at hq
      cases hq
  · refine ⟨fun p hp => absurd hp (hnoRun p), fun k hk => absurd hk hdone, fun k => ?_, fun k _ hk => ?_,
      fun k hk => ?_, fun p hp => absurd hp (hnoRun p)⟩
    · rw [hinit.pc]
      trivial
    · rw [hinit.pc] at hk
      exact hk.elim
    · rw [hinit.pc] at hk
      exact hk.elim
  · rw [hinit.pc]
    trivial
  · rw [hinit.slots] at hx
    cases hx
  · rw [hinit.slots] at hx
    cases hx

variable [DecidableEq ι]

/-- **Every step of every thread keeps the invariant.** -/
theorem BitmapSysInv.step (hinv : BitmapSysInv s) {act : BitmapAction ι}
    (hstep : bitmapStep s act = some s') : BitmapSysInv s' := by
  cases act with
  | reserve a n =>
    simp only [bitmapStep] at hstep
    split at hstep
    · rename_i hok
      exact hinv.reserve hok.1 hok.2.1 hok.2.2 hstep
    · cases hstep
  | activate k r i link1 link2 =>
    simp only [bitmapStep] at hstep
    split at hstep
    · rename_i hk hx
      cases hstep
      exact hinv.begin hk hx rfl .activate link1 link2
    · cases hstep
  | free k r i link1 link2 =>
    simp only [bitmapStep] at hstep
    split at hstep
    · rename_i hk hx
      cases hstep
      exact hinv.begin hk hx rfl .free link1 link2
    · rename_i hk hx
      cases hstep
      exact hinv.begin hk hx rfl .free link1 link2
    · cases hstep
  | go k => exact hinv.step_go hstep

end

/-- **The volatile and the persistent bitmaps agree.**  In every interleaving of reservations,
activations and frees of small objects after `nvm_initialize_empty`, the bitmap of a run on NVM is a
subset of the volatile one; and whenever no call is in flight, the volatile bits are the outstanding
slots, the persistent ones the activated slots, and every pointer leads back to its index. -/
theorem bitmaps_agree {ι : Type} [DecidableEq ι] (s : BitmapSys ι)
    (hs : Runs BitmapSys.Init bitmapStep (fun _ _ => True) s) :
    NvmWithinVolatile s ∧ ((∀ k, s.pc k = .done) → BitmapsAgree s) := by
  have hinv : BitmapSysInv s :=
    Runs.invariant (fun _ hinit => hinit.inv) (fun _ _ _ hinv _ hstep => hinv.step hstep) hs
  exact ⟨hinv.nvmWithinVolatile, hinv.bitmapsAgree⟩

/-- A process after `nvm_initialize_empty`, with two threads. -/
def freshProcess : BitmapSys Bool where
  heap := ⟨fun _ => ⟨0, 0, 0, 0, 0, 0, fun _ => (0, 0), fun _ => 0⟩,
    fun _ => ⟨0, (0, 0), 0, 0, 0, fun _ => false, none⟩, 0, fun _ => ⟨none, 0, 0, none⟩, 0⟩
  trees a := if a < initialArenas then
    SearchTree.nil.treeAdd ArenaBlock.nPages ⟨a * chunkSize + blockSize, chunkSize / blockSize - 1, a⟩
    else .nil
  nextChunk := initialArenas
  slots _ _ := none
  call _ := ⟨.activate, 0, none, none⟩
  slot _ := (0, 0)
  pc _ := .done

/-- Two slots of one run: the first is activated with a link, while the second, only reserved, is
freed. -/
def activateAndFree : List (BitmapAction Bool) :=
  [.reserve 0 100, .reserve 0 100, .activate false 0 0 (some (8192, 4160)) none,
    .free true 0 1 none none] ++
    List.replicate 14 (.go false) ++ List.replicate 8 (.go true) ++ List.replicate 2 (.go false) ++
    List.replicate 8 (.go true)

/-- The two calls in one interleaving. -/
theorem bitmaps_agree_activate_and_free :
    ∃ s : BitmapSys Bool, Runs BitmapSys.Init bitmapStep (fun _ _ => True) s ∧ (∀ k, s.pc k = .done) ∧
      (s.heap.nvmBit 0 0 = true ∧ (s.heap.vheaders 0).bitmap 1 = false) ∧ BitmapsAgree s := by
  have hstart : Runs BitmapSys.Init bitmapStep (fun _ _ => True) freshProcess :=
    .start ⟨rfl, rfl, fun _ => rfl, fun _ => rfl, rfl, fun _ _ => rfl, fun _ => rfl⟩
  have hrun : ((runActions bitmapStep freshProcess activateAndFree).any fun s =>
      ((s.pc false).isDone && (s.pc true).isDone) &&
        decide (s.heap.nvmBit 0 0 = true ∧ (s.heap.vheaders 0).bitmap 1 = false)) = true := by
    decide +kernel
  obtain ⟨s, hs, htest⟩ := hstart.exists_of_actions hrun
  obtain ⟨hpcs, hbits⟩ := Bool.and_eq_true_iff.mp htest
  obtain ⟨hactivate, hfree⟩ := Bool.and_eq_true_iff.mp hpcs
  have hdone : ∀ k, s.pc k = .done := by
    intro k
    cases k with
    | false => exact SlotPc.eq_done hactivate
    | true => exact SlotPc.eq_done hfree
  exact ⟨s, hs, hdone, of_decide_eq_true hbits, (bitmaps_agree s hs).2 hdone⟩

end NvmMalloc
