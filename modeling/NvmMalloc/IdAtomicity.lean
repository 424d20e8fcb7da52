import NvmMalloc.RecoveredTable
import NvmMalloc.RecoveredRegion

/-!
# Crashes inside calls by identifier

Reference: `src/nvm_malloc.c` (`nvm_activate_id`, `nvm_free_id`), `src/object_table.c` (`ot_recover`).

The slot of an identifier and the header of its region change state in separate stores.  After a restart
the identifier is known exactly if its slot was in state INITIALIZED: a slot in state INITIALIZING is
always dropped, also when the region has been activated, and a slot in state FREEING is never looked at,
also when the region has not been freed.
-/

namespace NvmMalloc

open Memory CrashM

/-- After a restart the identifier is known exactly if the region is allocated, and it names the
region. -/
structure IdAtomic (w : World) (id : List UInt8) (r : Region) : Prop where
  known : (nvmGetId w id).isSome ↔ MarkedAllocated w.nvm.mem r
  names : ∀ ptr, nvmGetId w id = some ptr → ptr = r.ptr

/-- What `ot_recover` reads back for an identifier: the pointer of the last slot in state INITIALIZED
whose key is found under it. -/
def readBack (junk : ℕ → List UInt8) (m : Mem) (id : List UInt8) : Option ℕ :=
  (((usedSlots m 1260).map (recoveredEntry junk m)).find? fun e =>
    decide (bucketOf e.id = bucketOf id) && equalFn id e.id).map OtEntry.dataPtr

/-- What is read back for the identifier is the region exactly if recovery leaves it allocated. -/
def IdRead (junk : ℕ → List UInt8) (img : Nvm) (id : List UInt8) (r : Region) : Prop :=
  ((readBack junk img.mem id).isSome ↔ AllocatedAfter img r) ∧
    ∀ ptr, readBack junk img.mem id = some ptr → ptr = r.ptr

section

variable {P : Process} {B : Blame} {L : Layout} {p₀ : ℕ} {img : Nvm} {w w' : World} {m m' : Mem}
  {r : Region} {e : OtEntry} {id : List UInt8} {ot : ObjectTable}

theorem readBack_congr {junk : ℕ → List UInt8} (h : ∀ s < 1260, EqOn m m' (otSlotAddr s) 64) :
    readBack junk m' id = readBack junk m id := by
  have hmap : (usedSlots m' 1260).map (recoveredEntry junk m') =
      (usedSlots m 1260).map (recoveredEntry junk m) := by
    rw [usedSlots_congr fun s hs => slotUsed_eqOn (h s hs)]
    refine List.map_congr_left fun s hs => ?_
    have heq := h s (mem_usedSlots.mp hs).1
    rw [recoveredEntry, recoveredEntry, nvmIdBytes_eqOn heq, field_eqOn heq (by decide)]
  rw [readBack, readBack, hmap]

theorem TableRead.nvmGetId_readBack {junk : ℕ → List UInt8} (h : TableRead junk w 1260 w') :
    nvmGetId w' id = readBack junk w.nvm.mem id := by
  unfold nvmGetId otGet readBack
  rw [h.hashmap, List.find?_filter]
  simp only [decide_eq_true_eq, Bool.decide_and, Bool.decide_coe]

/-- What is read back for a short identifier of the table `ot` that wrote the slots. -/
theorem readBack_of_short (junk : ℕ → List UInt8) (hot : OtInv ot) (hget : otGet ot id = some e)
    (hlen : id.length < maxIdLength)
    (hentries : ∀ s < 1260, SlotUsed m s → ∃ e', ot.Has e' ∧ e'.slot = s ∧ OnNvm m e') :
    readBack junk m id = if SlotUsed m e.slot then some e.dataPtr else none := by
  obtain ⟨hmem, -⟩ := otGet_has hget
  have hentry := hot.entry hmem
  have hid : e.id = id := by
    rw [hot.id_of_otGet hget, List.take_of_length_le hlen.le]
  have hs : e.slot < 1260 := hentry.slot.trans_le hot.next
  -- a used slot whose key matches is the slot of the entry
  have hmatch : ∀ {s}, s ∈ usedSlots m 1260 → equalFn id (recoveredEntry junk m s).id = true →
      SlotUsed m e.slot ∧ field m (otSlotAddr s) otPtrF = e.dataPtr := by
    intro s hmem' heq
    obtain ⟨hs', hused⟩ := mem_usedSlots.mp hmem'
    obtain ⟨e', ⟨b, hb⟩, rfl, hnvm⟩ := hentries s hs' hused
    have hok := hot.entry hb
    have hptr := hnvm.ptr
    rcases hok.len.lt_or_eq with hlt | hfull
    · have hkey := hnvm.recoveredKey_eq hok.nul hlt (junk e'.slot)
      rw [hok.addr] at hkey hptr
      rw [show (recoveredEntry junk m e'.slot).id = e'.id from hkey, equalFn_iff_of_short hlt] at heq
      rw [hot.ids ⟨b, hb⟩ ⟨_, hmem⟩ (heq.symm.trans hid.symm) hlt] at hused hptr ⊢
      exact ⟨hused, hptr⟩
    · have hkey := hnvm.recoveredKey_full hok.nul hfull (junk e'.slot)
      rw [hok.addr] at hkey
      rw [show (recoveredEntry junk m e'.slot).id = e'.id ++ junk e'.slot from hkey, equalFn_iff,
        List.take_append_of_le_length hfull.ge, List.take_of_length_le hfull.le,
        List.take_of_length_le hlen.le] at heq
      rw [heq] at hlen
      omega
  unfold readBack
  cases hx : ((usedSlots m 1260).map (recoveredEntry junk m)).find? fun x =>
      decide (bucketOf x.id = bucketOf id) && equalFn id x.id with
  | some x =>
    obtain ⟨s, hs', rfl⟩ := List.mem_map.mp (List.mem_of_find?_eq_some hx)
    have heq := List.find?_some hx
    rw [Bool.and_eq_true] at heq
    obtain ⟨hused, hptr⟩ := hmatch hs' heq.2
    rw [if_pos hused, Option.map_some]
    exact congrArg some hptr
  | none =>
    rw [if_neg, Option.map_none]
    intro hused
    obtain ⟨e', he', hslot, hnvm⟩ := hentries e.slot hs hused
    obtain rfl := hot.slots he' ⟨_, hmem⟩ hslot
    have hkey := hnvm.recoveredKey_eq hentry.nul (hid ▸ hlen) (junk e'.slot)
    rw [hentry.addr] at hkey
    have hkey' : (recoveredEntry junk m e'.slot).id = id := hkey.trans hid
    have hmiss := List.find?_eq_none.mp hx _
      (List.mem_map.mpr ⟨e'.slot, mem_usedSlots.mpr ⟨hs, hused⟩, rfl⟩)
    rw [hkey', decide_eq_true rfl, Bool.true_and, equalFn_iff] at hmiss
    exact hmiss rfl

/-- **When an identifier and its region agree after a restart**: what is read back from the slots is
the region exactly if recovery leaves it allocated. -/
theorem Blames.idAtomic_iff (hb : Blames B L img) (himg : ImgInv L p₀ img) (hconv : ¬ B.convert)
    (hstale : ¬ B.stale) (hchunks : 20 ≤ img.nextChunk) (hchain : ∀ c < 20,
      field img.mem (4194304 * c) nextOtChunkF = if c < 19 then 4194304 * (c + 1) else 0)
    (hrec : Recovers P img w') (ht : OnTile L img.mem r) (hsize : 1 ≤ r.nBytes) :
    IdAtomic w' id r ↔ IdRead P.junk img id r := by
  obtain ⟨w₀, w₁, w₂, hr, hnvm, -, hslots, hread⟩ := hb.tableRead himg hconv hstale hchunks hchain hrec
  have hgetId : nvmGetId w' id = readBack P.junk img.mem id :=
    hread.nvmGetId_readBack.trans (readBack_congr hslots)
  -- clearing slots does not reach the header of the region
  have hmarked : MarkedAllocated w'.nvm.mem r ↔ AllocatedAfter img r := by
    obtain ⟨-, t, hp⟩ := ht.page hsize
    have heq : EqOn w₁.nvm.mem w'.nvm.mem (4096 * (r.ptr / 4096)) 64 := by
      intro x hlo hhi
      rw [hread.mem_eq, hnvm]
      refine clearSlots_apply fun s _ => ?_
      have hbounds := otSlotAddr_bounds (s := s)
      omega
    exact (MarkedAllocated.congr ht hsize heq).trans (hr.marked_iff ht hsize)
  rw [IdRead, ← hmarked, ← hgetId]
  exact ⟨fun h => ⟨h.known, h.names⟩, fun h => ⟨h.1, h.2⟩⟩

/-- A short identifier agrees with its region if its slot was in state INITIALIZED exactly if recovery
leaves the region allocated. -/
theorem idRead_iff_of_short (junk : ℕ → List UInt8) (hot : OtInv ot) (hget : otGet ot id = some e)
    (hlen : id.length < maxIdLength) (hptr : r.ptr = e.dataPtr)
    (hentries : ∀ s < 1260, SlotUsed img.mem s → ∃ e', ot.Has e' ∧ e'.slot = s ∧ OnNvm img.mem e') :
    IdRead junk img id r ↔ (SlotUsed img.mem e.slot ↔ AllocatedAfter img r) := by
  rw [IdRead, readBack_of_short junk hot hget hlen hentries]
  split
  · rename_i hused
    simp [hused, hptr]
  · rename_i hused
    simp [hused]

end

/-! ## The images of the calls -/

/-- An image that a restart can work on, with the tile of `r` and slots written by the table `ot`. -/
structure IdImage (B : Blame) (L : Layout) (p₀ : ℕ) (ot : ObjectTable) (r : Region) (img : Nvm) :
    Prop where
  inv : ImgInv L p₀ img
  blames : Blames B L img
  tile : OnTile L img.mem r
  chunks : 20 ≤ img.nextChunk
  chain : ∀ c < 20, field img.mem (4194304 * c) nextOtChunkF = if c < 19 then 4194304 * (c + 1) else 0
  entries : ∀ s < 1260, SlotUsed img.mem s → ∃ e, ot.Has e ∧ e.slot = s ∧ OnNvm img.mem e

section

variable {P : Process} {B : Blame} {L : Layout} {img : Nvm} {w : World} {live : List Region}
  {r : Region} {e : OtEntry} {id : List UInt8}

/-- Between two calls. -/
theorem ProcInv.idImage (h : ProcInv L w live) (ht : TableInv w) (hr : r ∈ live) (B : Blame) :
    IdImage B L 0 w.ot r w.nvm where
  inv := h.nvm.imgInv 0
  blames := h.nvm.blames B
  tile := h.toHeapInv.onTile hr
  chunks := h.nvm.lt_nextChunk (h.nvm.base 19 (by decide))
  chain := ht.chain
  entries := ht.initialized

/-- One slot is rewritten and not in use. -/
theorem TableInv.entries_of_slot (ht : TableInv w) {m : Mem} {s : ℕ}
    (hoff : EqOff w.nvm.mem m (otSlotAddr s) 64) (hunused : ¬ SlotUsed m s) :
    ∀ n < 1260, SlotUsed m n → ∃ e, w.ot.Has e ∧ e.slot = n ∧ OnNvm m e := by
  intro n hn hused
  have hne : n ≠ s := by
    rintro rfl
    exact hunused hused
  have heq : EqOn w.nvm.mem m (otSlotAddr n) 64 := hoff.eqOn (otSlotAddr_disjoint hne)
  rw [slotUsed_eqOn heq] at hused
  obtain ⟨e, ⟨b, hb⟩, hslot, hnvm⟩ := ht.initialized n hn hused
  refine ⟨e, ⟨b, hb⟩, hslot, hnvm.congr ?_⟩
  rw [(ht.ot.entry hb).addr, hslot]
  exact heq

theorem TableInv.chain_of_slot (ht : TableInv w) {m : Mem} {s : ℕ}
    (hoff : EqOff w.nvm.mem m (otSlotAddr s) 64) : ∀ c < 20,
      field m (4194304 * c) nextOtChunkF = if c < 19 then 4194304 * (c + 1) else 0 := by
  intro c hc
  have hbounds := otSlotAddr_bounds (s := s)
  have heq : EqOn w.nvm.mem m (4194304 * c) 64 := hoff.eqOn (by omega)
  rw [field_eqOn heq (by decide), ht.chain c hc]

/-- The protocols on region headers leave the slots and the chain alone. -/
theorem IdImage.of_table {p₀ : ℕ} {ot : ObjectTable} {m : Mem} (hot : OtInv ot)
    (hinv : ImgInv L p₀ img) (hblames : Blames B L img) (htile : OnTile L img.mem r)
    (hchunks : 20 ≤ img.nextChunk) (htable : ∀ c < initialArenas, EqOn m img.mem (4194304 * c) 4096)
    (hchain : ∀ c < 20, field m (4194304 * c) nextOtChunkF = if c < 19 then 4194304 * (c + 1) else 0)
    (hentries : ∀ s < 1260, SlotUsed m s → ∃ e, ot.Has e ∧ e.slot = s ∧ OnNvm m e) :
    IdImage B L p₀ ot r img := by
  have hslot {s : ℕ} (hs : s < 1260) := slot_eqOn_of_table htable hs
  refine ⟨hinv, hblames, htile, hchunks, fun c hc => ?_, fun s hs hused => ?_⟩
  · rw [field_eqOn ((htable c hc).mono le_rfl (by omega)) (by decide), hchain c hc]
  · rw [slotUsed_eqOn (hslot hs)] at hused
    obtain ⟨e, ⟨b, hb⟩, hes, hnvm⟩ := hentries s hs hused
    refine ⟨e, ⟨b, hb⟩, hes, hnvm.congr ?_⟩
    rw [(hot.entry hb).addr, hes]
    exact hslot hs

/-- The images of `nvm_activate_id`: nothing is there, the slot is in state INITIALIZING, or all is
done. -/
theorem ActivateIdImage.idImage (h : ProcInv L w live) (ht : TableInv w) (hhas : w.ot.Has e)
    (hr : r ∈ live) (hptr : r.ptr = e.dataPtr) (hactive : r.active = false)
    (hnew : ¬ SlotUsed w.nvm.mem e.slot) (hfresh : FreshHuge w r.ptr → B.fresh) (hlinks : B.links = [])
    (himg : ActivateIdImage L w live r e img) :
    ∃ L' p₀, IdImage B L' p₀ w.ot r img ∧
      ((¬ SlotUsed img.mem e.slot ∧ ¬ AllocatedAfter img r) ∨ SlotPending img.mem e.slot ∨
        (SlotUsed img.mem e.slot ∧ AllocatedAfter img r)) := by
  have hs := ht.slot_lt hhas
  have haddr : e.nvmEntry = otSlotAddr e.slot := by
    obtain ⟨b, hb⟩ := hhas
    exact (ht.ot.entry hb).addr
  have hchunks : 19 < w.nvm.nextChunk := h.nvm.lt_nextChunk (h.nvm.base 19 (by decide))
  have hinactive {w' : World} (h' : ProcInv L w' live) : ¬ AllocatedAfter w'.nvm r := by
    rw [h'.toHeapInv.allocatedAfter_iff hr fun _ => EqOn.refl _ _ _, hactive]
    decide
  cases himg with
  | start => exact ⟨L, 0, h.idImage ht hr B, Or.inl ⟨hnew, hinactive h⟩⟩
  | @writing m hoff hst =>
    rw [haddr] at hoff hst
    have hset : ProcInv L (w.setMem m) live := h.setSlot hs hoff fun hst' => by
      rw [hst] at hst'
      exact absurd hst' (by decide)
    have hunused : ¬ SlotUsed m e.slot := by
      unfold SlotUsed
      rw [hst]
      decide
    have hunmarked := hinactive hset
    exact ⟨L, 0, ⟨hset.nvm.imgInv 0, hset.nvm.blames B, hset.toHeapInv.onTile hr, hchunks,
      ht.chain_of_slot hoff, ht.entries_of_slot hoff hunused⟩, Or.inl ⟨hunused, hunmarked⟩⟩
  | @region m img hoff hst hnvm himg =>
    rw [haddr] at hoff hst
    have hset : ProcInv L (w.setMem m) live := h.setSlot hs hoff fun _ => by
      rw [← haddr, hnvm.ptr, ← hptr]
      exact h.logged_ptr hr
    have hunused : ¬ SlotUsed m e.slot := by
      unfold SlotUsed
      rw [hst]
      decide
    obtain ⟨hinv, -, hblames⟩ := himg.image hset.toHeapInv hr hactive (linkOk_none _) (linkOk_none _)
      (fun hf => hfresh (hf.of_slot hoff)) (fun hst => absurd hst.1 (by simp)) hlinks
    obtain ⟨hnext, htable⟩ := himg.table hset.toHeapInv (linkOk_none _) (linkOk_none _)
    refine ⟨L, _, .of_table ht.ot hinv hblames (himg.outcome hset.toHeapInv hr hactive).tile
      (hnext ▸ hchunks) htable (ht.chain_of_slot hoff) (ht.entries_of_slot hoff hunused),
      Or.inr (Or.inl ?_)⟩
    unfold SlotPending
    rw [field_eqOn (slot_eqOn_of_table htable hs) (by decide)]
    exact hst
  | @done L' w' h' ht' hot hst =>
    have hr' : { r with active := true } ∈ setActive r.ptr live :=
      mem_setActive.mpr (Or.inr ⟨r, hr, rfl, rfl⟩)
    have himage := h'.idImage ht' hr' B
    have hactive' : AllocatedAfter w'.nvm { r with active := true } :=
      (h'.toHeapInv.allocatedAfter_iff hr' fun _ => EqOn.refl _ _ _).mpr rfl
    refine ⟨L', 0, ⟨himage.inv, himage.blames, himage.tile.of_active, himage.chunks, himage.chain, ?_⟩,
      Or.inr (Or.inr ⟨?_, hactive'⟩)⟩
    · rw [← hot]
      exact himage.entries
    · unfold SlotUsed
      rw [← haddr]
      exact hst

/-- The images of `nvm_free_id`: nothing has happened, or the slot is in state FREEING. -/
theorem FreeIdImage.idImage (h : ProcInv L w live) (ht : TableInv w) (hhas : w.ot.Has e) (hr : r ∈ live)
    (hactive : r.active = true) (hused : SlotUsed w.nvm.mem e.slot) (hlinks : B.links = [])
    (himg : FreeIdImage L w r e img) :
    ∃ L' p₀, IdImage B L' p₀ w.ot r img ∧
      ((SlotUsed img.mem e.slot ∧ AllocatedAfter img r) ∨
        field img.mem (otSlotAddr e.slot) stateF = stateFreeing) := by
  have hs := ht.slot_lt hhas
  have haddr : e.nvmEntry = otSlotAddr e.slot := by
    obtain ⟨b, hb⟩ := hhas
    exact (ht.ot.entry hb).addr
  have hchunks : 19 < w.nvm.nextChunk := h.nvm.lt_nextChunk (h.nvm.base 19 (by decide))
  cases himg with
  | start =>
    refine ⟨L, 0, h.idImage ht hr B, Or.inl ⟨hused, ?_⟩⟩
    exact (h.toHeapInv.allocatedAfter_iff hr fun _ => EqOn.refl _ _ _).mpr hactive
  | @region m img hoff hst himg =>
    rw [haddr] at hoff hst
    have hset : ProcInv L (w.setMem m) live := h.setSlot hs hoff fun hst' => by
      rw [hst] at hst'
      exact absurd hst' (by decide)
    have hunused : ¬ SlotUsed m e.slot := by
      unfold SlotUsed
      rw [hst]
      decide
    obtain ⟨hinv, -, hblames⟩ := himg.image hset.toHeapInv (linkOk_none _) (linkOk_none _) hlinks
    obtain ⟨hnext, htable⟩ := himg.table hset.toHeapInv (linkOk_none _) (linkOk_none _)
    have htile := himg.onTile hset.toHeapInv hr
    refine ⟨L, _, .of_table ht.ot hinv hblames htile (hnext ▸ hchunks) htable (ht.chain_of_slot hoff)
      (ht.entries_of_slot hoff hunused), Or.inr ?_⟩
    rw [field_eqOn (slot_eqOn_of_table htable hs) (by decide)]
    exact hst

theorem IdImage.exists_recovers {p₀ : ℕ} {ot : ObjectTable} (h : IdImage B L p₀ ot r img)
    (hB : ¬ B.grow ∧ ¬ B.convert ∧ ¬ B.fresh ∧ ¬ B.stale)
    (hgaps : (gapSlots img.mem 1260).length ≤ slotBufferSize) (P : Process) : ∃ w', Recovers P img w' :=
  h.blames.exists_recovers h.inv hB h.chunks h.chain hgaps P

theorem IdImage.idAtomic_iff {p₀ : ℕ} {ot : ObjectTable} {w' : World} (h : IdImage B L p₀ ot r img)
    (hconv : ¬ B.convert) (hstale : ¬ B.stale) (hsize : 1 ≤ r.nBytes) (hot : OtInv ot)
    (hget : otGet ot id = some e) (hptr : r.ptr = e.dataPtr) (hrec : Recovers P img w') :
    IdAtomic w' id r ↔ if id.length < maxIdLength then (SlotUsed img.mem e.slot ↔ AllocatedAfter img r)
      else IdRead P.junk img id r := by
  rw [h.blames.idAtomic_iff h.inv hconv hstale h.chunks h.chain hrec h.tile hsize]
  split
  · rename_i hlen
    exact idRead_iff_of_short P.junk hot hget hlen hptr h.entries
  · rfl

end

/-! ## Activation and free by identifier -/

theorem SlotPending.not_used {m : Mem} {s : ℕ} (h : SlotPending m s) : ¬ SlotUsed m s := by
  intro hused
  unfold SlotPending at h
  unfold SlotUsed at hused
  rw [hused] at h
  exact absurd h (by decide)

section

variable {P : Process} {s : Sys} {id : List UInt8} {e : OtEntry} {r : Region} {img : Nvm}

/-- Every cut of `nvm_activate_id` on a reserved identifier. -/
theorem idImage_of_activateId (hs : Reachable P s) (hvalid : (Op.activateId id).Valid s)
    (hget : otGet s.w.ot id = some e) (hr : r ∈ s.live) (hptr : r.ptr = e.dataPtr)
    (hnew : ¬ SlotUsed s.w.nvm.mem e.slot) (himg : img ∈ cuts (Op.activateId id).prog s.w) :
    ∃ L p₀, IdImage ((Op.activateId id).blame s) L p₀ s.w.ot r img ∧
      ((¬ SlotUsed img.mem e.slot ∧ ¬ AllocatedAfter img r) ∨ SlotPending img.mem e.slot ∨
        (SlotUsed img.mem e.slot ∧ AllocatedAfter img r)) := by
  obtain ⟨L, hproc, ht, -⟩ := sysInv_of_reachable hs
  obtain ⟨r', hr', hptr', hactive⟩ := hvalid.2 e hget
  obtain rfl : r' = r := hproc.live.eq_of_ptr hr' hr (hptr'.trans hptr.symm)
  have hspec : Spec (Op.activateId id).prog (ActivateIdImage L s.w s.live r' e) (fun _ _ => True)
      (fun _ => False) s.w :=
    Spec.bind ((nvmActivateId_spec hproc ht hget hr hptr hactive).mono (fun _ h => h) (fun _ _ h => h)
      fun _ h => h) fun _ _ _ => spec_pure.mpr trivial
  exact (hspec.cuts .start himg).idImage hproc ht ⟨_, (otGet_has hget).1⟩ hr hptr hactive hnew
    (fun hf => ⟨e, hget, hptr ▸ hf⟩) rfl

/-- Every cut of `nvm_free_id` on an activated identifier. -/
theorem idImage_of_freeId (hs : Reachable P s) (hvalid : (Op.freeId id).Valid s)
    (hget : otGet s.w.ot id = some e) (hr : r ∈ s.live) (hptr : r.ptr = e.dataPtr)
    (hused : SlotUsed s.w.nvm.mem e.slot) (himg : img ∈ cuts (Op.freeId id).prog s.w) :
    ∃ L p₀, IdImage ((Op.freeId id).blame s) L p₀ s.w.ot r img ∧
      ((SlotUsed img.mem e.slot ∧ AllocatedAfter img r) ∨
        field img.mem (otSlotAddr e.slot) stateF = stateFreeing) := by
  obtain ⟨L, hproc, ht, -⟩ := sysInv_of_reachable hs
  obtain ⟨r', hr', hptr', hactive⟩ := hvalid.2 e hget
  obtain rfl : r' = r := hproc.live.eq_of_ptr hr' hr (hptr'.trans hptr.symm)
  have hspec : Spec (Op.freeId id).prog (FreeIdImage L s.w r' e) (fun _ _ => True)
      (fun stop => stop = .diverges) s.w :=
    Spec.bind ((nvmFreeId_spec hproc ht hget hr hptr hactive).mono (fun _ h => h) (fun _ _ h => h)
      fun _ h => h) fun _ _ _ => spec_pure.mpr trivial
  exact (hspec.cuts .start himg).idImage hproc ht ⟨_, (otGet_has hget).1⟩ hr hactive hused rfl

/-- What recovery needs to know of the table and the region. -/
theorem Reachable.idOk (hs : Reachable P s) (hr : r ∈ s.live) : OtInv s.w.ot ∧ 1 ≤ r.nBytes := by
  obtain ⟨L, hproc, ht, -⟩ := sysInv_of_reachable hs
  exact ⟨ht.ot, (hproc.live.size r hr).1⟩

end

/-- **When a crash inside `nvm_activate_id` splits the identifier from its region**: the slot is still
in state INITIALIZING and recovery leaves the region allocated.  An identifier of 54 or more characters
depends on what its key is read back as. -/
theorem activate_id_atomic_iff {P P' : Process} {s : Sys} {id : List UInt8} {e : OtEntry} {r : Region}
    {img : Nvm} (hs : Reachable P s) (hvalid : (Op.activateId id).Valid s)
    (hget : otGet s.w.ot id = some e) (hr : r ∈ s.live) (hptr : r.ptr = e.dataPtr)
    (hnew : ¬ SlotUsed s.w.nvm.mem e.slot) (himg : img ∈ cuts (Op.activateId id).prog s.w) :
    (¬ FreshHuge s.w r.ptr → (gapSlots img.mem 1260).length ≤ slotBufferSize → ∃ w, Recovers P' img w) ∧
    ∀ w, Recovers P' img w → (IdAtomic w id r ↔ if id.length < maxIdLength then
      ¬ (SlotPending img.mem e.slot ∧ AllocatedAfter img r) else IdRead P'.junk img id r) := by
  obtain ⟨L, p₀, himage, hcases⟩ := idImage_of_activateId hs hvalid hget hr hptr hnew himg
  obtain ⟨hot, hsize⟩ := hs.idOk hr
  refine ⟨fun hfresh hgaps => himage.exists_recovers ⟨not_false, not_false, ?_, not_false⟩ hgaps P',
    fun w hrec => ?_⟩
  · rintro ⟨e', he', hf⟩
    obtain rfl : e = e' := Option.some.inj (hget.symm.trans he')
    exact hfresh (hptr ▸ hf)
  rw [himage.idAtomic_iff not_false not_false hsize hot hget hptr hrec]
  refine iff_of_eq (if_congr Iff.rfl (propext ?_) rfl)
  rcases hcases with ⟨hunused, hfree⟩ | hpend | ⟨hused, halloc⟩
  · exact iff_of_true (iff_of_false hunused hfree) fun h => hfree h.2
  · constructor
    · exact fun hiff h => hpend.not_used (hiff.mpr h.2)
    · exact fun h => iff_of_false hpend.not_used fun halloc => h ⟨hpend, halloc⟩
  · exact iff_of_true (iff_of_true hused halloc) fun h => h.1.not_used hused

/-- The region of the identifier a after `nvm_reserve_id("a", 5000)` on a fresh heap. -/
def namedRegion (active : Bool) : Region := ⟨4186176, 5000, active⟩

theorem not_freshHuge_namedRegion {w : World} : ¬ FreshHuge w 4186176 := fun h => absurd h.1 (by decide)

/-- The identifier a is in the table and names the region. -/
def NamesRegion (s : Sys) (active : Bool) (e : OtEntry) : Prop :=
  otGet s.w.ot [97] = some e ∧ e.dataPtr = 4186176 ∧ s.live = [namedRegion active] ∧
    s.w.ot.nextNvmSlot ≤ slotBufferSize

theorem NamesRegion.ptr {s : Sys} {active : Bool} {e : OtEntry} (h : NamesRegion s active e) :
    (namedRegion active).ptr = e.dataPtr :=
  h.2.1.symm

theorem NamesRegion.mem {s : Sys} {active : Bool} {e : OtEntry} (h : NamesRegion s active e) :
    namedRegion active ∈ s.live :=
  h.2.2.1 ▸ List.mem_singleton_self _

section

variable {active : Bool} {op : Op} {p : Mem → OtEntry → Prop} [∀ m e, Decidable (p m e)]
  {q : Nvm → OtEntry → Prop} [∀ img e, Decidable (q img e)]

variable (active op p q) in
/-- The identifier names the region, the call may be made, `p` holds before it, and `q` for an image that
a crash inside it may leave. -/
def namesCut (s : Sys) : Bool :=
  (otGet s.w.ot [97]).any fun e => decide ((e.dataPtr = 4186176 ∧ s.live = [namedRegion active] ∧
    s.w.ot.nextNvmSlot ≤ slotBufferSize) ∧ op.Valid s ∧ p s.w.nvm.mem e) &&
    (cuts op.prog s.w).any fun img => decide (q img e)

/-- Evaluation of a history that leads to such an image. -/
theorem exists_namesCut {ops : List Op} (h : (sampleHistory ops).any (namesCut active op p q) = true) :
    ∃ s e img, Reachable sampleProcess s ∧ NamesRegion s active e ∧ op.Valid s ∧ p s.w.nvm.mem e ∧
      img ∈ cuts op.prog s.w ∧ q img e := by
  obtain ⟨s, hs, htest⟩ := Process.exists_reachable h
  rw [namesCut, Option.any_eq_true] at htest
  obtain ⟨e, hget, htest⟩ := htest
  rw [Bool.and_eq_true, decide_eq_true_iff, List.any_eq_true] at htest
  obtain ⟨⟨hnames, hvalid, hp⟩, img, himg, hq⟩ := htest
  exact ⟨s, e, img, hs, ⟨hget, hnames⟩, hvalid, hp, himg, of_decide_eq_true hq⟩

end

/-- `nvm_activate_id` is cut before the header of the block is committed: the identifier is dropped and
the block is free. -/
theorem activate_id_atomic_halfway : ∃ s e img w, Reachable sampleProcess s ∧ NamesRegion s false e ∧
    img ∈ cuts (Op.activateId [97]).prog s.w ∧ SlotPending img.mem e.slot ∧
    Recovers sampleProcess img w ∧ IdAtomic w [97] (namedRegion false) := by
  have hany : (sampleHistory [.reserveId [97] 0 5000]).any (namesCut false (.activateId [97])
      (fun m e => ¬ SlotUsed m e.slot)
      fun img e => SlotPending img.mem e.slot ∧ ¬ AllocatedAfter img (namedRegion false)) = true := by
    decide +kernel
  obtain ⟨s, e, img, hs, hnames, hvalid, hnew, himg, hpend, hfree⟩ := exists_namesCut hany
  obtain ⟨L, p₀, himage, -⟩ :=
    idImage_of_activateId hs hvalid hnames.1 hnames.mem hnames.ptr hnew himg
  obtain ⟨hexists, hiff⟩ := @activate_id_atomic_iff _ sampleProcess _ _ _ _ _ hs hvalid hnames.1
    hnames.mem hnames.ptr hnew himg
  obtain ⟨w, hrec⟩ := hexists not_freshHuge_namedRegion
    (((hs.idOk hnames.mem).1.gapSlots_length_le himage.entries).trans hnames.2.2.2)
  exact ⟨s, e, img, w, hs, hnames, himg, hpend, hrec,
    (hiff w hrec).mpr ((if_pos (by decide)).mpr fun h => hfree h.2)⟩

/-- `nvm_activate_id` is cut after the header of the block has been committed: the block stays
allocated and the identifier is gone. -/
theorem activate_id_loses_id : ∃ s e img w, Reachable sampleProcess s ∧
    (Op.activateId [97]).Valid s ∧ NamesRegion s false e ∧ ¬ SlotUsed s.w.nvm.mem e.slot ∧
    img ∈ cuts (Op.activateId [97]).prog s.w ∧ Recovers sampleProcess img w ∧
    ¬ IdAtomic w [97] (namedRegion false) := by
  have hany : (sampleHistory [.reserveId [97] 0 5000]).any (namesCut false (.activateId [97])
      (fun m e => ¬ SlotUsed m e.slot)
      fun img e => SlotPending img.mem e.slot ∧ AllocatedAfter img (namedRegion false)) = true := by
    decide +kernel
  obtain ⟨s, e, img, hs, hnames, hvalid, hnew, himg, hpend, halloc⟩ := exists_namesCut hany
  obtain ⟨L, p₀, himage, -⟩ :=
    idImage_of_activateId hs hvalid hnames.1 hnames.mem hnames.ptr hnew himg
  obtain ⟨hot, hsize⟩ := hs.idOk hnames.mem
  have hfresh : ¬ (Op.activateId [97]).activatesFresh s := by
    rintro ⟨e', he', hf⟩
    obtain rfl : e = e' := Option.some.inj (hnames.1.symm.trans he')
    rw [hnames.2.1] at hf
    exact not_freshHuge_namedRegion hf
  obtain ⟨w, hrec⟩ := himage.exists_recovers ⟨not_false, not_false, hfresh, not_false⟩
    ((hot.gapSlots_length_le himage.entries).trans hnames.2.2.2) sampleProcess
  refine ⟨s, e, img, w, hs, hvalid, hnames, hnew, himg, hrec, fun hatomic => hpend.not_used ?_⟩
  exact ((if_pos (by decide)).mp ((himage.idAtomic_iff not_false not_false hsize hot hnames.1
    hnames.ptr hrec).mp hatomic)).mpr halloc

/-- **When a crash inside `nvm_free_id` splits the identifier from its region**: the slot is in state
FREEING and recovery leaves the region allocated.  An identifier of 54 or more characters depends on what
its key is read back as. -/
theorem free_id_atomic_iff {P P' : Process} {s : Sys} {id : List UInt8} {e : OtEntry} {r : Region}
    {img : Nvm} (hs : Reachable P s) (hvalid : (Op.freeId id).Valid s)
    (hget : otGet s.w.ot id = some e) (hr : r ∈ s.live) (hptr : r.ptr = e.dataPtr)
    (hused : SlotUsed s.w.nvm.mem e.slot) (himg : img ∈ cuts (Op.freeId id).prog s.w) :
    ((gapSlots img.mem 1260).length ≤ slotBufferSize → ∃ w, Recovers P' img w) ∧
    ∀ w, Recovers P' img w → (IdAtomic w id r ↔ if id.length < maxIdLength then
      ¬ (field img.mem (otSlotAddr e.slot) stateF = stateFreeing ∧ AllocatedAfter img r)
      else IdRead P'.junk img id r) := by
  obtain ⟨L, p₀, himage, hcases⟩ := idImage_of_freeId hs hvalid hget hr hptr hused himg
  obtain ⟨hot, hsize⟩ := hs.idOk hr
  refine ⟨fun hgaps => himage.exists_recovers ⟨not_false, not_false, not_false, not_false⟩ hgaps P',
    fun w hrec => ?_⟩
  rw [himage.idAtomic_iff not_false not_false hsize hot hget hptr hrec]
  refine iff_of_eq (if_congr Iff.rfl (propext ?_) rfl)
  rcases hcases with ⟨hused', halloc⟩ | hst
  · refine iff_of_true (iff_of_true hused' halloc) fun h => ?_
    unfold SlotUsed at hused'
    rw [hused'] at h
    exact absurd h.1 (by decide)
  · have hunused : ¬ SlotUsed img.mem e.slot := by
      unfold SlotUsed
      rw [hst]
      decide
    constructor
    · exact fun hiff h => hunused (hiff.mpr h.2)
    · exact fun h => iff_of_false hunused fun halloc => h ⟨hst, halloc⟩

/-- `nvm_free_id` is cut after the header of the block says free: the identifier is gone with it. -/
theorem free_id_atomic_freed : ∃ s e img w, Reachable sampleProcess s ∧ NamesRegion s true e ∧
    img ∈ cuts (Op.freeId [97]).prog s.w ∧ ¬ SlotUsed img.mem e.slot ∧
    Recovers sampleProcess img w ∧ IdAtomic w [97] (namedRegion true) := by
  have hany : (sampleHistory [.reserveId [97] 0 5000, .activateId [97]]).any (namesCut true
      (.freeId [97]) (fun m e => SlotUsed m e.slot)
      fun img e => ¬ SlotUsed img.mem e.slot ∧ ¬ AllocatedAfter img (namedRegion true)) = true := by
    decide +kernel
  obtain ⟨s, e, img, hs, hnames, hvalid, hused, himg, hunused, hfree⟩ := exists_namesCut hany
  obtain ⟨L, p₀, himage, -⟩ :=
    idImage_of_freeId hs hvalid hnames.1 hnames.mem hnames.ptr hused himg
  obtain ⟨hexists, hiff⟩ := @free_id_atomic_iff _ sampleProcess _ _ _ _ _ hs hvalid hnames.1
    hnames.mem hnames.ptr hused himg
  obtain ⟨w, hrec⟩ := hexists
    (((hs.idOk hnames.mem).1.gapSlots_length_le himage.entries).trans hnames.2.2.2)
  exact ⟨s, e, img, w, hs, hnames, himg, hunused, hrec,
    (hiff w hrec).mpr ((if_pos (by decide)).mpr fun h => hfree h.2)⟩

/-- `nvm_free_id` is cut after its first store: the identifier is gone and the block stays allocated. -/
theorem free_id_loses_id : ∃ s e img w, Reachable sampleProcess s ∧ (Op.freeId [97]).Valid s ∧
    NamesRegion s true e ∧ SlotUsed s.w.nvm.mem e.slot ∧ img ∈ cuts (Op.freeId [97]).prog s.w ∧
    Recovers sampleProcess img w ∧ ¬ IdAtomic w [97] (namedRegion true) := by
  have hany : (sampleHistory [.reserveId [97] 0 5000, .activateId [97]]).any (namesCut true
      (.freeId [97]) (fun m e => SlotUsed m e.slot)
      fun img e => ¬ SlotUsed img.mem e.slot ∧ AllocatedAfter img (namedRegion true)) = true := by
    decide +kernel
  obtain ⟨s, e, img, hs, hnames, hvalid, hused, himg, hunused, halloc⟩ := exists_namesCut hany
  obtain ⟨L, p₀, himage, -⟩ :=
    idImage_of_freeId hs hvalid hnames.1 hnames.mem hnames.ptr hused himg
  obtain ⟨hot, hsize⟩ := hs.idOk hnames.mem
  obtain ⟨w, hrec⟩ := himage.exists_recovers ⟨not_false, not_false, not_false, not_false⟩
    ((hot.gapSlots_length_le himage.entries).trans hnames.2.2.2) sampleProcess
  refine ⟨s, e, img, w, hs, hvalid, hnames, hused, himg, hrec, fun hatomic => hunused ?_⟩
  exact ((if_pos (by decide)).mp ((himage.idAtomic_iff not_false not_false hsize hot hnames.1
    hnames.ptr hrec).mp hatomic)).mpr halloc

end NvmMalloc
