import NvmMalloc.Reachability
import NvmMalloc.SlotQueue

/-!
# Reserving and freeing named objects

Reference: `src/nvm_malloc.c` (`nvm_reserve_id`, `nvm_get_id`, `nvm_free_id`), `src/object_table.c`.

`nvm_free_id` frees the region of an identifier whether it was activated or not.  For a small or a huge
region that makes no difference.  The header of a large region that is only reserved is still that of a
free page run, which `arena_free` takes for a false free: the identifier goes, the pages stay taken.

`nvm_reserve_id` does not look at the result of `ot_insert`: once all slots of the object table are in
use it returns regions that no identifier is bound to.
-/

namespace NvmMalloc

open Memory CrashM

variable {L : Layout} {w w' : World} {live : List Region} {r : Region} {e : OtEntry}
  {id : List UInt8} {p : ℕ}

/-! ## Released regions -/

/-- What `n_free` of a bin should be: the free slots of its runs. -/
def binFree (w : World) (ab : ℕ × ℕ) : ℕ :=
  (((List.range w.nVheaders).filter fun k => (w.vheaders k).bin = ab).map fun k =>
    (w.vheaders k).nFree).sum

/-- The slot at `ptr` is free: its bit is clear in the VHeader of its run and on NVM, and the counters of
the run and of its bin count the clear bits. -/
def SlotAvailable (w : World) (ptr : ℕ) : Prop :=
  let h := ptr / blockSize * blockSize
  let run := w.vheaders (field w.nvm.mem h vdataF)
  let i := (ptr - (h + headerSize)) / run.elemSize
  i < run.nMax ∧ run.bitmap i = false ∧ bitmapBit w.nvm.mem h i = false ∧
    run.nFree = clearBits run.bitmap run.nMax ∧ (w.bin run.bin).nFree = binFree w run.bin

/-- The space of region `r` can be handed out again: its slot is free, its pages are a node of the tree
of the arena that their header names, or its chunks are a node of `free_chunks`. -/
def Available (w : World) (r : Region) : Prop :=
  if r.nBytes ≤ sclassSmallMax then
    SlotAvailable w r.ptr
  else if r.nBytes ≤ sclassLargeMax then
    let a := field w.nvm.mem (r.ptr - headerSize) blockArenaIdF
    ⟨r.ptr - headerSize, roundUp r.nBytes blockSize / blockSize, a⟩ ∈ (w.arenas a).freePageruns.toList
  else
    ⟨r.ptr - headerSize, chunksFor r.nBytes⟩ ∈ w.freeChunks.toList

instance (w : World) (ptr : ℕ) : Decidable (SlotAvailable w ptr) :=
  inferInstanceAs (Decidable (_ ∧ _ ∧ _ ∧ _ ∧ _))

instance (w : World) (r : Region) : Decidable (Available w r) := by
  unfold Available
  infer_instance

/-- The counter of a bin. -/
theorem BinsInv.nFree_eq (h : BinsInv w.vheaders w.bin w.nVheaders) (ab : ℕ × ℕ) :
    (w.bin ab).nFree = binFree w ab := by
  obtain ⟨R, hR, hmem⟩ := h ab
  have hperm : R.Perm ((List.range w.nVheaders).filter fun k => (w.vheaders k).bin = ab) := by
    refine (List.perm_ext_iff_of_nodup hR.nodup (List.nodup_range.filter _)).mpr fun k => ?_
    rw [hmem, List.mem_filter, List.mem_range, decide_eq_true_eq]
  rw [hR.sum, binFree]
  exact (hperm.map _).sum_eq

/-- A slot that no outstanding region lies in is free. -/
theorem ProcInv.slotAvailable (h : ProcInv L w live) {k i ptr : ℕ} (hp : L p = some (.run k))
    (hi : i < slotsPerRun (w.vheaders k).elemSize)
    (hptr : ptr = 4096 * p + 64 + (w.vheaders k).elemSize * i) (hgone : ∀ r ∈ live, r.ptr ≠ ptr) :
    SlotAvailable w ptr := by
  obtain ⟨c, -, helem⟩ := h.elemSize_runSize hp
  have hof := (h.runs.run hp).2
  have hslots := h.slots_le hp
  have hpage : ptr / blockSize * blockSize = 4096 * p := by
    rw [show ptr / blockSize = p by rw [hptr]; exact slot_page (by omega) hi]
    exact Nat.mul_comm ..
  have hidx : (ptr - (4096 * p + headerSize)) / (w.vheaders k).elemSize = i := by
    rw [hptr, show 4096 * p + headerSize = 4096 * p + 64 from rfl, slot_index (by omega)]
  have hclear : (w.vheaders k).bitmap i = false := by
    by_contra hset
    obtain ⟨r, hr, hrptr⟩ := h.live.slot hp hi (by simpa using hset)
    exact hgone r hr (hrptr.trans hptr.symm)
  have hnvm : bitmapBit w.nvm.mem (4096 * p) i = false := by
    by_contra hset
    have hi64 : i < 64 := by omega
    have hvolatile := (h.live.nvmBit hp hi64 (by simpa using hset)).2
    rw [hclear] at hvolatile
    exact absurd hvolatile (by simp)
  obtain ⟨R, hR, hmem⟩ := h.bins (w.vheaders k).bin
  have hk : k ∈ R := (hmem k).mpr ⟨(h.runs.run hp).1, rfl⟩
  unfold SlotAvailable
  simp only [hpage, hof.vdata, hidx]
  exact ⟨hof.nMax ▸ hi, hclear, hnvm, hR.free k hk, h.bins.nFree_eq _⟩

/-- A page run of a pool is a node of the tree of that pool. -/
theorem HeapInv.available_large (h : HeapInv L w live) (hlo : sclassSmallMax < r.nBytes)
    (hhi : r.nBytes ≤ sclassLargeMax) (hptr : r.ptr = 4096 * p + 64) :
    Available w r ↔ L p = some (.block (roundUp r.nBytes blockSize / blockSize)
      (.pool (field w.nvm.mem (4096 * p) blockArenaIdF))) := by
  have hbase : r.ptr - headerSize = 4096 * p := by
    rw [hptr]
    exact Nat.add_sub_cancel ..
  unfold Available
  rw [if_neg (by omega), if_pos hhi]
  simp only [hbase, (h.pool.pages _).mem]
  constructor
  · rintro ⟨q, hq, haddr, -⟩
    obtain rfl : p = q := by
      simp only at haddr
      omega
    exact hq
  · exact fun hp => ⟨p, hp, rfl, rfl⟩

/-- A huge region of the pool is a node of `free_chunks`. -/
theorem HeapInv.available_huge (h : HeapInv L w live) (hlo : sclassLargeMax < r.nBytes)
    (hptr : r.ptr = 4096 * p + 64) (hp : L p = some (.huge (chunksFor r.nBytes) (.pool 0))) :
    Available w r := by
  have hbase : r.ptr - headerSize = 4096 * p := by
    rw [hptr]
    exact Nat.add_sub_cancel ..
  have hsizes : sclassSmallMax ≤ sclassLargeMax := by decide
  unfold Available
  rw [if_neg (by omega), if_neg (by omega), hbase]
  exact (h.pool.chunks.mem _).mpr ⟨p, hp, rfl⟩

/-! ## `nvm_free_id` -/

/-- The regions that `nvm_free` recognises: all but the large ones that are only reserved. -/
def Region.Freeable (r : Region) : Prop :=
  r.active = true ∨ r.nBytes ≤ sclassSmallMax ∨ sclassLargeMax < r.nBytes

instance (r : Region) : Decidable r.Freeable := inferInstanceAs (Decidable (_ ∨ _ ∨ _))

/-- The ledger after a free of `r`, recognised or not. -/
def afterFree (r : Region) (live : List Region) : List Region :=
  if r.Freeable then dropRegion r.ptr live else live

/-- `nvm_free` returns on every outstanding region, active or not, and makes it available unless it is
large and only reserved. -/
theorem nvmFree_releases (h : ProcInv L w live) (hr : r ∈ live) :
    Spec (nvmFree r.ptr none none) (fun _ => True)
      (fun _ w' => Untouched w w' ∧ (Available w' r ↔ r.Freeable) ∧
        ∃ L', ProcInv L' w' (afterFree r live))
      (fun _ => False) w := by
  have hnone : LinkOk live none := by simp [LinkOk]
  -- a region that is recognised leaves the ledger
  have hreleased : ∀ {L' w'}, r.Freeable → ProcInv L' w' (dropRegion r.ptr live) →
      ∃ L', ProcInv L' w' (afterFree r live) := by
    intro L' w' hfree hproc
    refine ⟨L', ?_⟩
    rw [afterFree, if_pos hfree]
    exact hproc
  cases h.live.placed r hr with
  | @huge hlo p htile hptr =>
    refine (nvmFree_huge_spec h htile hptr hnone hnone fun _ _ => trivial).imp ?_
    rintro _ w' ⟨L', hproc, hu, -, hp⟩
    have hfree : r.Freeable := Or.inr (Or.inr hlo)
    exact ⟨hu, iff_of_true (hproc.toHeapInv.available_huge hlo hptr hp) hfree, hreleased hfree hproc⟩
  | @small hsize p k i htile helem hi hptr hbit hnvm =>
    obtain ⟨-, hst, -⟩ : Quiet w.nvm.mem p (.run k) := h.nvm.quiet htile
    obtain ⟨hmod, hpage⟩ := h.small_ptr htile (le_elemSize (h.live.size r hr).1 helem) hi hptr
    unfold nvmFree arenaFree
    rw [if_neg hmod]
    simp only [hpage]
    refine spec_loadField_then ?_
    rw [hst, if_neg (by decide), if_pos (by decide)]
    refine (arenaFreeSmall_spec h hr htile hi hptr hnone hnone).mono (fun _ _ => trivial) ?_ fun _ h => h
    rintro _ w' ⟨hproc, hu, -, helem'⟩
    have hfree : r.Freeable := Or.inr (Or.inl hsize)
    refine ⟨hu, iff_of_true ?_ hfree, hreleased hfree hproc⟩
    unfold Available
    rw [if_pos hsize]
    exact hproc.slotAvailable htile (helem' ▸ hi) (helem' ▸ hptr) fun r' hr' => (mem_dropRegion.mp hr').2
  | @large hlo hhi p htile hptr =>
    obtain ⟨-, -, hst, -⟩ := h.nvm.quiet htile
    obtain ⟨hmod, hpage⟩ := h.large_ptr htile hptr
    have hclass : ¬ (r.nBytes ≤ sclassSmallMax ∨ sclassLargeMax < r.nBytes) := by omega
    unfold nvmFree arenaFree
    rw [if_neg hmod]
    simp only [hpage]
    refine spec_loadField_then ?_
    rw [hst]
    cases hactive : r.active with
    | true =>
      rw [hactive] at htile
      rw [if_pos (by decide)]
      refine (arenaFreeLarge_spec h hptr htile hnone hnone).mono (fun _ _ => trivial) ?_ fun _ h => h
      rintro _ w' ⟨L', hproc, hu, -, hp, hid⟩
      rw [← hid] at hp
      have hfree : r.Freeable := Or.inl hactive
      exact ⟨hu, iff_of_true ((hproc.toHeapInv.available_large hlo hhi hptr).mpr hp) hfree,
        hreleased hfree hproc⟩
    | false =>
      -- the header is still that of a free page run
      rw [hactive] at htile
      rw [if_neg (by decide), if_neg (by decide), spec_pure]
      have hfalse : ¬ r.Freeable := by
        rintro (htrue | hsize)
        · rw [hactive] at htrue
          exact absurd htrue (by simp)
        · exact hclass hsize
      refine ⟨⟨rfl, rfl, rfl, fun _ _ => EqOn.refl _ _ _⟩, iff_of_false (fun havail => ?_) hfalse, L, ?_⟩
      · rw [h.toHeapInv.available_large hlo hhi hptr, htile] at havail
        exact absurd havail (by simp)
      · rw [afterFree, if_neg hfalse]
        exact h

/-- `nvm_free_id` frees the region and then removes the identifier, which spins once the slot queue has
been filled up. -/
theorem nvmFreeId_releases (h : ProcInv L w live) (ht : TableInv w) (hget : otGet w.ot id = some e)
    (hr : r ∈ live) (hptr : r.ptr = e.dataPtr) :
    Spec (nvmFreeId id) (fun _ => True)
      (fun _ w' => w.ot.slotBufferNextIdx < slotBufferSize ∧ (Available w' r ↔ r.Freeable) ∧
        (∃ L', ProcInv L' w' (afterFree r live)) ∧ TableInv w' ∧ w'.nvmStart = w.nvmStart)
      (fun _ => w.ot.slotBufferNextIdx = slotBufferSize) w := by
  have hhas : w.ot.Has e := ⟨_, (otGet_has hget).1⟩
  have hs := ht.slot_lt hhas
  unfold nvmFreeId
  rw [spec_bind, spec_get]
  simp only [hget]
  change Spec _ _ _ _ (w.setMem w.nvm.mem)
  refine spec_storeField_then fun m hm => ?_
  obtain ⟨-, hst, h₁, ht₁⟩ := h.markFreeing ht hhas hm
  refine ⟨trivial, spec_persist_then ?_⟩
  rw [← hptr]
  refine Spec.bind ((nvmFree_releases h₁ hr).mono (fun _ h => h) (fun _ _ h => h) fun _ h => h.elim) ?_
  rintro _ w₂ ⟨hu, havail, L₂, h₂⟩
  have hot : w₂.ot = w.ot := hu.ot
  have ht₂ := ht₁.of_untouched hu
  refine Spec.bind ((otRemove_cases ht₂.ot id).mono (fun _ h => h) (fun _ _ h => h)
    fun _ hstop => hot ▸ hstop.2.2) ?_
  rintro _ w₃ (⟨-, hnone, -⟩ | ⟨-, e', ot', hget', hroom, rfl, hinv, hhas', -⟩)
  · rw [hot, hget] at hnone
    exact absurd hnone (by simp)
  · rw [spec_pure]
    rw [hot, hget, Option.some.injEq] at hget'
    subst hget'
    refine ⟨hot ▸ hroom, havail, ⟨L₂, h₂.setOt ot'⟩, ht₂.setOt hinv fun e' he' hst' => ?_, hu.nvmStart⟩
    -- the entry that was removed is marked as being freed
    refine (hhas' e').mpr ⟨he', fun hee => ?_⟩
    subst hee
    obtain ⟨b, hmem⟩ := hhas
    have haddr := (ht.ot.entry hmem).addr
    rw [← haddr, field_eqOn (haddr ▸ hu.slot_eqOn hs) (by decide), setMem_nvm, hst] at hst'
    exact absurd hst' (by decide)

/-- The states of a client that also frees named objects it has only reserved.  A large one that was not
recognised stays in the ledger. -/
inductive ReachableNamed (P : Process) : Sys → Prop where
  | reachable {s : Sys} (hs : Reachable P s) : ReachableNamed P s
  | step {s s' : Sys} {op : Op} (hs : ReachableNamed P s) (hstep : Step s op s') : ReachableNamed P s'
  | freeId {s : Sys} {id : List UInt8} {e : OtEntry} {r : Region} {w' : World}
      (hs : ReachableNamed P s) (hget : otGet s.w.ot id = some e) (hr : r ∈ s.live)
      (hptr : r.ptr = e.dataPtr) (hrun : (nvmFreeId id s.w).2 = .ok ((), w')) :
      ReachableNamed P ⟨w', afterFree r s.live⟩

theorem ReachableNamed.sysInv {P : Process} {s : Sys} (hs : ReachableNamed P s) : SysInv P s := by
  induction hs with
  | reachable hs => exact sysInv_of_reachable hs
  | step _ hstep ih =>
    obtain ⟨hvalid, hrun⟩ := hstep
    exact (op_spec ih hvalid).result hrun
  | freeId _ hget hr hptr hrun ih =>
    obtain ⟨L, hproc, ht, hstart⟩ := ih
    obtain ⟨-, -, ⟨L', hproc'⟩, ht', hstart'⟩ := (nvmFreeId_releases hproc ht hget hr hptr).result hrun
    exact ⟨L', hproc', ht', hstart'.trans hstart⟩

/-- **`nvm_free_id` returns and makes the region of an identifier available again exactly when** the
region is active, small or huge, and the slot queue has not been filled up. -/
theorem free_id_releases_iff {P : Process} {s : Sys} (hs : ReachableNamed P s)
    (hget : otGet s.w.ot id = some e) (hr : r ∈ s.live) (hptr : r.ptr = e.dataPtr) :
    (∃ w', (nvmFreeId id s.w).2 = .ok ((), w') ∧ Available w' r) ↔
      r.Freeable ∧ s.w.ot.slotBufferNextIdx < slotBufferSize := by
  obtain ⟨L, hproc, ht, -⟩ := hs.sysInv
  have hspec := nvmFreeId_releases hproc ht hget hr hptr
  constructor
  · rintro ⟨w', hrun, havail⟩
    obtain ⟨hroom, hiff, -⟩ := hspec.result hrun
    exact ⟨hiff.mp havail, hroom⟩
  · rintro ⟨hcond, hroom⟩
    rcases hrun : (nvmFreeId id s.w).2 with stop | ⟨_, w'⟩
    · exact absurd (hspec.stop hrun) (by omega)
    · exact ⟨w', rfl, (hspec.result hrun).2.1.mpr hcond⟩

/-- A small object that is only reserved is freed. -/
theorem free_id_releases_small : ∃ s w', Reachable sampleProcess s ∧
    s.live = [⟨4190272, 100, false⟩] ∧ (nvmFreeId [97] s.w).2 = .ok ((), w') ∧
    Available w' ⟨4190272, 100, false⟩ := by
  have hany : (sampleHistory [.reserveId [97] 0 100]).any
      (fun s => s.live = [⟨4190272, 100, false⟩] ∧
        (otGet s.w.ot [97]).map OtEntry.dataPtr = some 4190272 ∧
        s.w.ot.slotBufferNextIdx < slotBufferSize) = true := by decide +kernel
  obtain ⟨s, hs, htest⟩ := Process.exists_reachable hany
  obtain ⟨hlive, hget, hroom⟩ := of_decide_eq_true htest
  obtain ⟨e, he, hptr⟩ := Option.map_eq_some_iff.mp hget
  obtain ⟨w', hrun, havail⟩ := (free_id_releases_iff (r := ⟨4190272, 100, false⟩) (.reachable hs) he
    (by rw [hlive]; exact List.mem_singleton_self _) hptr.symm).mpr
    ⟨Or.inr (Or.inl (by decide)), hroom⟩
  exact ⟨s, w', hs, hlive, hrun, havail⟩

/-- A large object that is only reserved loses its identifier and keeps its pages. -/
theorem free_id_leaks_large : ∃ s w', Reachable sampleProcess s ∧
    s.live = [⟨4186176, 5000, false⟩] ∧ (nvmFreeId [97] s.w).2 = .ok ((), w') ∧
    nvmGetId w' [97] = none ∧ ¬ Available w' ⟨4186176, 5000, false⟩ := by
  have hany : (sampleHistory [.reserveId [97] 0 5000]).any
      (fun s => s.live = [⟨4186176, 5000, false⟩] ∧
        returnsWith (fun _ w' => decide (nvmGetId w' [97] = none ∧
          ¬ Available w' ⟨4186176, 5000, false⟩)) (nvmFreeId [97] s.w).2) = true := by decide +kernel
  obtain ⟨s, hs, htest⟩ := Process.exists_reachable hany
  obtain ⟨hlive, hfree⟩ := of_decide_eq_true htest
  obtain ⟨_, w', hrun, hfree⟩ := of_returnsWith hfree
  obtain ⟨hnone, hleak⟩ := of_decide_eq_true hfree
  exact ⟨s, w', hs, hlive, hrun, hnone, hleak⟩

/-! ## `nvm_reserve_id` -/

/-- `ot_insert` can take a slot: a freed one, or one that was never used. -/
def ObjectTable.HasSlot (ot : ObjectTable) : Prop :=
  0 < ot.slotBufferNFree ∨ ot.nextNvmSlot < ot.totalSlotsAvailable

/-- A call that returned `res` has bound the identifier to it, or has failed without a trace. -/
structure BindsOrFails (w : World) (id : List UInt8) (res : Option ℕ) (w' : World) : Prop where
  bound : ∀ ptr, res = some ptr → nvmGetId w' id = some ptr
  clean : res = none → w' = w

/-- What an insertion of a new identifier does to the table. -/
theorem otInsert_absent (h : OtInv w.ot) {ptr : ℕ} (habsent : otGet w.ot id = none) :
    Spec (otInsert id ptr) (fun _ => True)
      (fun _ w' => (¬ w.ot.HasSlot ∧ w' = w) ∨ (w.ot.HasSlot ∧ ∃ ot slot,
        ot.hashmap = w.ot.hashmap ∧
        w' = w.setOt (hashmapInsert ot ⟨id.take maxIdLength, slot, ptr, otSlotAddr slot⟩) ∧
        (w.ot.slotBufferNFree ≤ 0 → ot.nextNvmSlot = w.ot.nextNvmSlot + 1 ∧
          ot.slotBufferNFree = w.ot.slotBufferNFree)))
      (fun _ => False) w := by
  unfold otInsert
  rw [spec_bind, spec_get, if_neg (by rw [habsent]; simp)]
  refine (otTakeSlot_cases h).bind ?_
  rintro res w' (⟨rfl, rfl, hempty, hfull⟩ | ⟨rfl, rfl, -, hroom⟩ | ⟨rfl, rfl, hfreed⟩)
  · refine spec_pure.mpr (Or.inl ⟨?_, rfl⟩)
    rintro (hfreed | hroom) <;> omega
  · show Spec (modify _ >>= _) _ _ _ _
    rw [spec_bind, spec_modify, spec_pure]
    exact Or.inr ⟨Or.inr hroom, { w.ot with nextNvmSlot := w.ot.nextNvmSlot + 1 }, _, rfl, rfl,
      fun _ => ⟨rfl, rfl⟩⟩
  · show Spec (modify _ >>= _) _ _ _ _
    rw [spec_bind, spec_modify, spec_pure]
    exact Or.inr ⟨Or.inl hfreed, { w.ot with
      slotBufferNFree := w.ot.slotBufferNFree - 1
      slotBufferHeadIdx := w.ot.slotBufferHeadIdx + 1 }, _, rfl, rfl, fun hempty => by omega⟩

/-- Splitting a huge region does not touch the object table. -/
theorem splitChunks_ot (x : Huge) (k : ℕ) :
    Spec (splitChunks x k) (fun _ => True) (fun _ w' => w'.ot = w.ot) (fun _ => True) w := by
  unfold splitChunks addFreeChunk
  dsimp only
  change Spec _ _ _ _ (w.setMem w.nvm.mem)
  refine spec_storeField_then fun m₁ _ => ⟨trivial, ?_⟩
  refine spec_storeField_then fun m₂ _ => ⟨trivial, spec_persist_then (spec_loadField_then ?_)⟩
  refine spec_storeField_then fun m₃ _ => ⟨trivial, ?_⟩
  rw [spec_bind, spec_modify, spec_pure]
  rfl

/-- The huge branch of `nvm_reserve` does not touch the object table. -/
theorem nvmReserveChunks_ot (k : ℕ) :
    Spec (nvmReserveChunks k) (fun _ => True) (fun _ w' => w'.ot = w.ot) (fun _ => True) w := by
  unfold nvmReserveChunks
  rw [spec_bind, spec_get]
  cases chunkUpperBound (k % 2 ^ 32) w.freeChunks with
  | none =>
    refine Spec.bind ((activateMoreChunks_spec fun _ => trivial).mono (fun _ h => h) (fun _ _ h => h)
      fun _ _ => trivial) ?_
    rintro c _ ⟨-, rfl, -⟩
    simp only [spec_bind, spec_storeField, spec_memset0, spec_persist, spec_pure, implies_true,
      true_and]
    rfl
  | some x =>
    simp only [spec_bind, spec_modify, spec_ite, spec_pure]
    exact ⟨fun _ => splitChunks_ot x k, fun _ => trivial⟩

/-- A reservation that returns gives a pointer, whatever its size, and leaves the object table alone. -/
theorem nvmReserve_pointer (h : ProcInv L w live) {a nBytes : ℕ} (ha : a < initialArenas) :
    Spec (nvmReserve a nBytes) (fun _ => True) (fun res w' => res.isSome ∧ w'.ot = w.ot)
      (fun _ => True) w := by
  by_cases hmax : nBytes ≤ maxNvmSpace
  · by_cases hn : 1 ≤ nBytes
    · refine (nvmReserve_spec (B := .any) h ha hn hmax (fun _ => trivial)
        fun _ _ => Blame.any_converts).mono (fun _ _ => trivial) ?_ fun _ _ => trivial
      rintro _ w' ⟨L', ptr, rfl, -, hu, -⟩
      exact ⟨rfl, hu.ot⟩
    · -- an empty request does not return
      obtain rfl : nBytes = 0 := by omega
      unfold nvmReserve arenaAllocate
      rw [if_pos (Nat.zero_le _), spec_bind, spec_assertThat]
      refine ⟨fun _ => ?_, fun _ => trivial⟩
      rw [if_pos (Nat.zero_le _), if_pos (by decide), spec_throw]
      trivial
  · have hlarge : sclassLargeMax ≤ maxNvmSpace := by decide
    unfold nvmReserve
    rw [if_neg (by omega)]
    refine (nvmReserveChunks_ot _).bind fun _ w' hot => ?_
    rw [spec_pure]
    exact ⟨rfl, hot⟩

/-- **`nvm_reserve_id` binds its identifier or fails cleanly exactly when** the identifier is in use
already or the object table has a slot. -/
theorem reserve_id_binds_iff {P : Process} {s : Sys} {a nBytes : ℕ} {res : Option ℕ}
    (hs : ReachableNamed P s) (hlen : id.length ≤ maxIdLength) (ha : a < initialArenas)
    (hrun : (nvmReserveId id a nBytes s.w).2 = .ok (res, w')) :
    BindsOrFails s.w id res w' ↔ (otGet s.w.ot id).isSome ∨ s.w.ot.HasSlot := by
  obtain ⟨L, hproc, ht, -⟩ := hs.sysInv
  unfold nvmReserveId at hrun
  obtain ⟨_, _, hget, hrun⟩ := bind_result.mp hrun
  cases hget
  cases habsent : otGet s.w.ot id with
  | some e =>
    rw [habsent] at hrun
    cases hrun
    exact iff_of_true ⟨by simp, fun _ => rfl⟩ (Or.inl rfl)
  | none =>
    rw [habsent] at hrun
    obtain ⟨mem, w₁, hreserve, hrun⟩ := bind_result.mp hrun
    obtain ⟨hsome, hot⟩ := (nvmReserve_pointer hproc ha).result hreserve
    obtain ⟨ptr, rfl⟩ := Option.isSome_iff_exists.mp hsome
    obtain ⟨_, w₂, hinsert, hpure⟩ := bind_result.mp hrun
    cases hpure
    have habsent₁ : otGet w₁.ot id = none := by rw [hot, habsent]
    rcases (otInsert_absent (hot ▸ ht.ot) habsent₁).result hinsert with
      ⟨hfull, rfl⟩ | ⟨hslot, ot, slot, hmap, rfl, -⟩
    · -- the result of `ot_insert` is lost: the region stays, without a name
      rw [hot] at hfull
      refine iff_of_false (fun hbinds => ?_) (by simpa using hfull)
      have hbound := hbinds.bound ptr rfl
      rw [nvmGetId, habsent₁] at hbound
      exact absurd hbound (by simp)
    · rw [hot] at hslot
      refine iff_of_true ⟨fun ptr' hptr => ?_, by simp⟩ (Or.inr hslot)
      rw [← Option.some.inj hptr, nvmGetId, World.setOt,
        otGet_hashmapInsert (keyFits_of_length_le hlen) (List.length_take_le _ _), if_pos]
      · rfl
      · rw [equalFn_iff, List.take_take, min_self]

/-! ## A full object table -/

/-- The identifier of object `k`, of two characters that are not NUL. -/
def fillId (k : ℕ) : List UInt8 := [UInt8.ofNat (k % 250 + 1), UInt8.ofNat (k / 250 + 1)]

/-- The first `k` slots of the table are in use, each by a huge region. -/
structure Filled (k : ℕ) (s : Sys) : Prop where
  reachable : Reachable sampleProcess s
  freeChunks : s.w.freeChunks = .nil
  nextChunk : s.w.nvm.nextChunk = 20 + k
  next : s.w.ot.nextNvmSlot = k
  nFree : s.w.ot.slotBufferNFree = 0
  ids : ∀ e, s.w.ot.Has e → ∃ j < k, e.id = fillId j

theorem fillId_inj {j k : ℕ} (hj : j < 1260) (hk : k < 1260) (h : fillId j = fillId k) : j = k := by
  unfold fillId at h
  simp only [List.cons.injEq, and_true] at h
  have hlo := congrArg UInt8.toNat h.1
  have hhi := congrArg UInt8.toNat h.2
  rw [UInt8.toNat_ofNat', UInt8.toNat_ofNat'] at hlo hhi
  omega

theorem fillId_short (k : ℕ) : (fillId k).length < maxIdLength := by
  show 2 < maxIdLength
  decide

theorem fillId_nul {k : ℕ} (hk : k < 1260) : (0 : UInt8) ∉ fillId k := by
  unfold fillId
  intro hmem
  simp only [List.mem_cons, List.not_mem_nil, or_false] at hmem
  rcases hmem with h | h <;>
  · have hnat := congrArg UInt8.toNat h
    rw [UInt8.toNat_ofNat', UInt8.toNat_zero] at hnat
    omega

/-- A huge request is served from new chunks. -/
theorem nvmReserve_grows (hfree : w.freeChunks = .nil) (hroom : w.nvm.nextChunk + 1 ≤ maxNvmChunks) :
    Spec (nvmReserve 0 3000000) (fun _ => True)
      (fun res w' => res.isSome ∧ w'.freeChunks = .nil ∧ w'.nvm.nextChunk = w.nvm.nextChunk + 1 ∧
        w'.ot = w.ot) (fun _ => False) w := by
  have hchunks : chunksFor 3000000 = 1 := by decide
  have hnode : chunkUpperBound (1 % 2 ^ 32) w.freeChunks = none := by rw [hfree]; rfl
  unfold nvmReserve nvmReserveChunks
  rw [if_neg (by decide), spec_bind, spec_bind, spec_get, hchunks]
  simp only [hnode]
  unfold nvmReserveHuge
  refine Spec.bind (Q := fun _ w' => w' = { w with nvm := { w.nvm with
    nextChunk := w.nvm.nextChunk + 1 } }) ?_ ?_
  · unfold activateMoreChunks
    rw [spec_bind, spec_get, if_neg (by omega), spec_bind, spec_commitMeta, spec_pure]
    exact ⟨trivial, rfl⟩
  · rintro c w₁ rfl
    set w₁ : World := { w with nvm := { w.nvm with nextChunk := w.nvm.nextChunk + 1 } }
    change Spec _ _ _ _ (w₁.setMem w.nvm.mem)
    refine spec_storeField_then fun m₁ _ => ⟨trivial, spec_storeField_then fun m₂ _ => ⟨trivial, ?_⟩⟩
    refine spec_memset0_then (fun _ _ => trivial) fun m₃ _ => spec_persist_then ?_
    rw [spec_pure, spec_pure]
    exact ⟨rfl, hfree, rfl, rfl⟩

/-- An identifier that no object has is absent. -/
theorem Filled.absent {k : ℕ} {s : Sys} (h : Filled k s) (hid : ∀ j < k, ¬ equalFn id (fillId j)) :
    otGet s.w.ot id = none := by
  cases hget : otGet s.w.ot id with
  | none => rfl
  | some e =>
    obtain ⟨hmem, hequal⟩ := otGet_has hget
    obtain ⟨j, hj, hej⟩ := h.ids e ⟨_, hmem⟩
    rw [hej] at hequal
    exact absurd hequal (hid j hj)

/-- Reserving under a new identifier in a filled state. -/
theorem Filled.reserveId {k : ℕ} {s : Sys} (h : Filled k s) (hk : k ≤ 1260)
    (habsent : otGet s.w.ot id = none) :
    Spec (nvmReserveId id 0 3000000) (fun _ => True)
      (fun res w' => res.isSome ∧ w'.freeChunks = .nil ∧ w'.nvm.nextChunk = 20 + (k + 1) ∧
        (k < 1260 → w'.ot.nextNvmSlot = k + 1 ∧ w'.ot.slotBufferNFree = 0 ∧
          ∀ e, w'.ot.Has e → s.w.ot.Has e ∨ e.id = id.take maxIdLength) ∧
        (k = 1260 → otGet w'.ot id = none))
      (fun _ => False) s.w := by
  obtain ⟨L, hproc, ht, -⟩ := sysInv_of_reachable h.reachable
  have hmax : maxNvmChunks = 25600 := by decide
  have hnext := h.nextChunk
  unfold nvmReserveId
  rw [spec_bind, spec_get, if_neg (by rw [habsent]; simp)]
  refine (nvmReserve_grows h.freeChunks (by omega)).bind ?_
  rintro res w₁ ⟨hsome, hfree, hchunk, hot⟩
  obtain ⟨ptr, rfl⟩ := Option.isSome_iff_exists.mp hsome
  refine (otInsert_absent (hot ▸ ht.ot) (by rw [hot, habsent])).bind ?_
  rintro _ w₂ (⟨hfull, rfl⟩ | ⟨hslot, ot, slot, hmap, rfl, hcounts⟩)
  · refine spec_pure.mpr ⟨rfl, hfree, by omega, fun hlt => absurd (Or.inr ?_) hfull, fun _ => ?_⟩
    · rw [hot, h.next, ht.ot.total]
      exact hlt
    · rw [hot, habsent]
  · refine spec_pure.mpr ⟨rfl, hfree, ?_, fun _ => ?_, fun hfull => absurd hslot ?_⟩
    · show w₁.nvm.nextChunk = _
      omega
    · obtain ⟨hslots, hnFree⟩ := hcounts (by rw [hot, h.nFree])
      refine ⟨?_, ?_, ?_⟩
      · show ot.nextNvmSlot = _
        rw [hslots, hot, h.next]
      · show ot.slotBufferNFree = _
        rw [hnFree, hot, h.nFree]
      · rintro e ⟨b, he⟩
        change e ∈ Function.update ot.hashmap _ _ b at he
        rw [hmap, hot] at he
        by_cases hb : b = bucketOf (id.take maxIdLength)
        · subst hb
          rw [Function.update_self] at he
          rcases List.mem_cons.mp he with rfl | he
          · exact Or.inr rfl
          · exact Or.inl ⟨_, he⟩
        · rw [Function.update_of_ne hb] at he
          exact Or.inl ⟨_, he⟩
    · rw [ObjectTable.HasSlot, hot, h.next, h.nFree, ht.ot.total]
      omega

/-- A fresh heap. -/
theorem exists_filled_zero : ∃ s, Filled 0 s := by
  have hinit : returnsWith (fun _ w => w.freeChunks.isNil && decide (w.nvm.nextChunk = 20 ∧
      w.ot.nextNvmSlot = 0 ∧ w.ot.slotBufferNFree = 0))
      (nvmInitialize sampleProcess.junk 20 false (sampleProcess.start blankNvm)).2 = true := by
    decide +kernel
  obtain ⟨_, w, hrun, htest⟩ := of_returnsWith hinit
  rw [Bool.and_eq_true, decide_eq_true_eq] at htest
  obtain ⟨hfree, hchunk, hnext, hnFree⟩ := htest
  have hempty := (mapInv_start hrun).not_has rfl
  exact ⟨⟨w, []⟩, .start hrun, SearchTree.isNil_iff.mp hfree, hchunk, hnext, hnFree,
    fun e he => absurd he (hempty e)⟩

/-- The object table can be filled. -/
theorem exists_filled {k : ℕ} (hk : k ≤ 1260) : ∃ s, Filled k s := by
  induction k with
  | zero => exact exists_filled_zero
  | succ k ih =>
    obtain ⟨s, hs⟩ := ih (by omega)
    have habsent : otGet s.w.ot (fillId k) = none := by
      refine hs.absent fun j hj hequal => ?_
      rw [equalFn_iff_of_short (fillId_short j)] at hequal
      have := fillId_inj (by omega) (by omega) hequal
      omega
    obtain ⟨res, w', hrun, hsome, hfree, hchunk, hot, -⟩ := (hs.reserveId (by omega) habsent).returns
    obtain ⟨hnext, hnFree, hids⟩ := hot (by omega)
    have hvalid : (Op.reserveId (fillId k) 0 3000000).Valid s :=
      ⟨fillId_nul (by omega), by decide, by decide, by decide⟩
    refine ⟨_, hs.reachable.step (.call hvalid hrun), hfree, hchunk, hnext, hnFree, fun e he => ?_⟩
    rcases hids e he with hold | hnew
    · obtain ⟨j, hj, hej⟩ := hs.ids e hold
      exact ⟨j, by omega, hej⟩
    · exact ⟨k, by omega, hnew⟩

/-- In a fresh heap an identifier is bound. -/
theorem reserve_id_binds_fresh : ∃ s res w', ReachableNamed sampleProcess s ∧
    (nvmReserveId [97] 0 3000000 s.w).2 = .ok (res, w') ∧ res.isSome ∧
    BindsOrFails s.w [97] res w' := by
  obtain ⟨s, hs⟩ := exists_filled_zero
  have habsent : otGet s.w.ot [97] = none := hs.absent fun j hj => absurd hj (Nat.not_lt_zero j)
  obtain ⟨res, w', hrun, hsome, -⟩ := (hs.reserveId (by omega) habsent).returns
  obtain ⟨-, -, ht, -⟩ := sysInv_of_reachable hs.reachable
  have hslot : s.w.ot.HasSlot := by
    refine Or.inr ?_
    rw [hs.next, ht.ot.total]
    decide
  exact ⟨s, res, w', .reachable hs.reachable, hrun, hsome,
    (reserve_id_binds_iff (.reachable hs.reachable) (by decide) (by decide) hrun).mpr (Or.inr hslot)⟩

/-- With 1260 named objects the next one gets a region and no name. -/
theorem reserve_id_unbound : ∃ s ptr w', Reachable sampleProcess s ∧ s.w.ot.nextNvmSlot = 1260 ∧
    (nvmReserveId [97] 0 3000000 s.w).2 = .ok (some ptr, w') ∧ nvmGetId w' [97] = none ∧
    ¬ BindsOrFails s.w [97] (some ptr) w' := by
  obtain ⟨s, hs⟩ := exists_filled le_rfl
  have habsent : otGet s.w.ot [97] = none := by
    refine hs.absent fun j _ hequal => ?_
    rw [equalFn_iff_of_short (fillId_short j)] at hequal
    exact absurd (congrArg List.length hequal) (show 1 ≠ 2 by decide)
  obtain ⟨res, w', hrun, hsome, -, -, -, hnone⟩ := (hs.reserveId le_rfl habsent).returns
  obtain ⟨ptr, rfl⟩ := Option.isSome_iff_exists.mp hsome
  have hget : nvmGetId w' [97] = none := by rw [nvmGetId, hnone rfl]; rfl
  refine ⟨s, ptr, w', hs.reachable, hs.next, hrun, hget, fun hbinds => ?_⟩
  have hbound := hbinds.bound ptr rfl
  rw [hget] at hbound
  exact absurd hbound (by simp)

end NvmMalloc
