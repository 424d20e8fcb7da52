import NvmMalloc.TableSpec

/-!
# Calls by identifier

Reference: `src/nvm_malloc.c` (`nvm_reserve_id`, `nvm_activate_id`, `nvm_free_id`).

An activation by identifier writes the slot, activates the region and marks the slot; a free by
identifier marks the slot, frees the region and drops the volatile entry.  `ActivateIdImage` and
`FreeIdImage` list what a crash between two of their stores can find.
-/

namespace NvmMalloc

open Memory CrashM

variable {L : Layout} {w : World} {live : List Region} {B : Blame} {id : List UInt8} {e : OtEntry}
  {r : Region}

/-! ## Reservation -/

/-- A pointer into the heap fits a machine word. -/
theorem HeapInv.ptr_lt (h : HeapInv L w live) (hr : r ∈ live) : r.ptr < 2 ^ 64 := by
  have hle : w.nvm.nextChunk ≤ 25600 := h.nvm.le
  have hbound : ∀ {p t}, L p = some t → p < 1024 * w.nvm.nextChunk := by
    intro p t hp
    have hend := h.nvm.ok.add_len_le hp
    have hpos := h.nvm.ok.len_pos hp
    omega
  cases h.live.placed r hr with
  | @small hsize p k i htile helem hi hptr hbit hnvm =>
    have hp := hbound htile
    have hend := slot_end_le hi
    omega
  | large hlo hhi htile hptr =>
    have hp := hbound htile
    omega
  | huge hlo htile hptr =>
    have hp := hbound htile
    omega

/-- `nvm_reserve_id` -/
theorem nvmReserveId_spec (h : ProcInv L w live) (ht : TableInv w) {a nBytes : ℕ}
    (hnul : (0 : UInt8) ∉ id) (ha : a < initialArenas) (hn : 1 ≤ nBytes) (hmax : nBytes ≤ maxNvmSpace)
    (hgrow : (otGet w.ot id).isNone → Grows w a nBytes → B.grow)
    (hconv : (otGet w.ot id).isNone → ∀ x, ConvertsPage w a nBytes x →
      B.Converts w.nvm (x.nvmBlock + headerSize)) :
    Spec (nvmReserveId id a nBytes) (CrashOk B live)
      (fun res w' => TableInv w' ∧ w'.nvmStart = w.nvmStart ∧
        (∀ e, ActiveEntry w' e ↔ ActiveEntry w e) ∧
        ((res = none ∧ ∃ L', ProcInv L' w' live ∧
            Evolves ((otGet w.ot id).isNone → KeepsArenas w a nBytes) L w.nvm.mem L' w'.nvm.mem) ∨
          ∃ ptr, res = some ptr ∧ ∃ L', ProcInv L' w' (⟨ptr, nBytes, false⟩ :: live) ∧
            Evolves ((otGet w.ot id).isNone → KeepsArenas w a nBytes) L w.nvm.mem L' w'.nvm.mem))
      (fun e => e = .exit) w := by
  unfold nvmReserveId
  rw [spec_bind, spec_get, spec_ite]
  refine ⟨fun _ => spec_pure.mpr ⟨ht, rfl, fun _ => Iff.rfl, Or.inl ⟨rfl, L, h, .refl _ _ _⟩⟩,
    fun hsome => ?_⟩
  have hnone : (otGet w.ot id).isNone := by simpa using hsome
  refine (nvmReserve_spec h ha hn hmax (hgrow hnone) (hconv hnone)).bind ?_
  rintro _ w' ⟨L', ptr, rfl, h', hu, hevolves⟩
  have ht' := ht.of_untouched hu
  have hlt : ptr < 2 ^ 64 := h'.toHeapInv.ptr_lt (r := ⟨ptr, nBytes, false⟩) List.mem_cons_self
  refine Spec.bind ((otInsert_spec ht'.ot hnul hlt).mono (fun _ h => h) (fun _ _ h => h)
    fun _ h => h.elim) ?_
  rintro _ _ ⟨ot', rfl, hot, hkeep, hnew⟩
  refine spec_pure.mpr ⟨ht'.setOt hot fun e he _ => hkeep e he, hu.nvmStart, fun e => ?_,
    Or.inr ⟨ptr, rfl, L', h'.setOt ot', hevolves.imp fun hkeeps => hkeeps hnone⟩⟩
  rw [← hu.activeEntry ht]
  refine ⟨fun ⟨he, hused⟩ => ?_, fun ⟨he, hused⟩ => ⟨hkeep e he, hused⟩⟩
  rcases hnew e he with hold | hfree
  · exact ⟨hold, hused⟩
  · -- a new entry takes a slot that is not in use
    have hlt : e.slot < 1260 := by
      obtain ⟨b, hb⟩ := he
      exact (hot.entry hb).slot.trans_le hot.next
    obtain ⟨e', he', hslot, -⟩ := ht'.initialized e.slot hlt hused
    exact absurd hslot (hfree e' he')

/-! ## Writing a slot -/

/-- `strncpy` as a list of bytes. -/
theorem range_map_getD (id : List UInt8) (n : ℕ) :
    (List.range n).map (fun k => id.getD k 0) =
      id.take n ++ List.replicate (n - (id.take n).length) 0 := by
  refine List.ext_getElem (by simp only [List.length_map, List.length_range, List.length_append,
    List.length_take, List.length_replicate]; omega) fun k hk hk' => ?_
  rw [List.length_map, List.length_range] at hk
  rw [List.getElem_map, List.getElem_range]
  by_cases hlt : k < id.length
  · rw [List.getElem_append_left (by rw [List.length_take]; omega), List.getElem_take,
      List.getD_eq_getElem _ _ hlt]
  · rw [List.getElem_append_right (by rw [List.length_take]; omega), List.getElem_replicate,
      List.getD_eq_default _ _ (by omega)]

/-- The copy of the identifier into the slot at `a`. -/
theorem strncpy_spec {C : Nvm → Prop} {m₀ : Mem} {a n : ℕ}
    (hC : ∀ m, EqOff m₀ m a n → C { w.nvm with mem := m }) :
    Spec (strncpy a id n) C
      (fun _ w' => ∃ m, w' = w.setMem m ∧ EqOff m₀ m a n ∧ ∀ k < n, m (a + k) = id.getD k 0)
      (fun _ => False) (w.setMem m₀) := by
  unfold strncpy
  let I : ℕ → World → Prop := fun k w' => ∃ m, w' = w.setMem m ∧ EqOff m₀ m a n ∧
    ∀ j < k, m (a + j) = id.getD j 0
  refine (spec_forRange I ⟨m₀, rfl, EqOff.refl _ _ _, fun j hj => by omega⟩ ?_).imp ?_
  · rintro k _ - hk ⟨m, rfl, heq, hcopy⟩
    rw [spec_storeAt]
    have heq' : EqOff m₀ (store m (a + k) 1 (id.getD k 0).toNat) a n :=
      heq.store _ (by omega) (by omega)
    refine ⟨hC _ heq', _, rfl, heq', fun j hj => ?_⟩
    show store m (a + k) 1 (id.getD k 0).toNat (a + j) = id.getD j 0
    by_cases hjk : j = k
    · subst hjk
      rw [store, if_pos (by omega), Nat.sub_self, pow_zero, Nat.div_one, UInt8.ofNat_toNat]
    · rw [store_eqOff _ _ _ _ _ (by omega), hcopy j (by omega)]
  · rintro _ _ ⟨m, rfl, heq, hcopy⟩
    exact ⟨m, rfl, heq, fun k hk => hcopy k (by omega)⟩

/-! ## Activation -/

/-- The images of `nvm_activate_id`: the slot is being written, the region is being activated, or the
call is done. -/
inductive ActivateIdImage (L : Layout) (w : World) (live : List Region) (r : Region) (e : OtEntry) :
    Nvm → Prop where
  | start : ActivateIdImage L w live r e w.nvm
  | writing {m : Mem} (hoff : EqOff w.nvm.mem m e.nvmEntry 64)
      (hst : field m e.nvmEntry stateF = stateNone) :
      ActivateIdImage L w live r e { w.nvm with mem := m }
  | region {m : Mem} {img : Nvm} (hoff : EqOff w.nvm.mem m e.nvmEntry 64)
      (hst : field m e.nvmEntry stateF = stateInitializing) (hnvm : OnNvm m e)
      (himg : ActivateImage L (w.setMem m) r none none img) : ActivateIdImage L w live r e img
  | done {L' : Layout} {w' : World} (h : ProcInv L' w' (setActive r.ptr live)) (ht : TableInv w')
      (hot : w'.ot = w.ot) (hst : field w'.nvm.mem e.nvmEntry stateF = stateInitialized) :
      ActivateIdImage L w live r e w'.nvm

/-- The stores to the slot before the region is activated. -/
theorem persistId_spec {C : Nvm → Prop} (hid : e.id = id.take maxIdLength) (hlt : e.dataPtr < 2 ^ 64)
    (hC : ∀ m, EqOff w.nvm.mem m e.nvmEntry 64 → field m e.nvmEntry stateF = stateNone ∨
      field m e.nvmEntry stateF = stateInitializing ∧ OnNvm m e → C { w.nvm with mem := m }) :
    Spec (persistId e.nvmEntry id e.dataPtr) C
      (fun _ w' => ∃ m, w' = w.setMem m ∧ EqOff w.nvm.mem m e.nvmEntry 64 ∧
        field m e.nvmEntry stateF = stateInitializing ∧ OnNvm m e) (fun _ => False) w := by
  unfold persistId
  change Spec _ _ _ _ (w.setMem w.nvm.mem)
  refine spec_storeField_then fun m₁ hm₁ => ?_
  have heq₁ : EqOff w.nvm.mem m₁ e.nvmEntry 64 :=
    hm₁ ▸ (EqOff.refl _ _ _).store _ (by omega) (by simp only [stateF]; omega)
  have hst₁ : field m₁ e.nvmEntry stateF = stateNone := by
    rw [hm₁]
    exact field_store_self
  -- the bytes behind the state byte
  have hbehind : ∀ {m}, EqOff m₁ m (e.nvmEntry + 1) 63 →
      EqOff w.nvm.mem m e.nvmEntry 64 ∧ field m e.nvmEntry stateF = stateNone := by
    intro m heq
    refine ⟨heq₁.trans (heq.mono (by omega) (by omega)), ?_⟩
    rw [← hst₁]
    exact field_congr (heq.eqOn (Or.inl (by simp only [stateF]; omega)))
  have hC' : ∀ m, EqOff m₁ m (e.nvmEntry + 1) 63 → C { w.nvm with mem := m } :=
    fun m heq => hC m (hbehind heq).1 (Or.inl (hbehind heq).2)
  refine ⟨hC m₁ heq₁ (Or.inl hst₁), ?_⟩
  refine Spec.bind ((strncpy_spec (n := maxIdLength) fun m heq =>
    hC' m (heq.mono le_rfl (by simp only [maxIdLength]; omega))).mono (fun _ h => h) (fun _ _ h => h)
      fun _ h => h.elim) ?_
  rintro _ _ ⟨m₂, rfl, heq₂, hcopy⟩
  have heq₂' : EqOff m₁ m₂ (e.nvmEntry + 1) 63 :=
    heq₂.mono le_rfl (by simp only [maxIdLength]; omega)
  refine spec_storeAt_then fun m₃ hm₃ => ?_
  have heq₃ : EqOff m₁ m₃ (e.nvmEntry + 1) 63 := hm₃ ▸ heq₂'.store _ (by omega) (by omega)
  refine ⟨hC' m₃ heq₃, ?_⟩
  refine spec_storeField_then fun m₄ hm₄ => ?_
  have heq₄ : EqOff m₁ m₄ (e.nvmEntry + 1) 63 :=
    hm₄ ▸ heq₃.store _ (by simp only [otPtrF]; omega) (by simp only [otPtrF]; omega)
  refine ⟨hC' m₄ heq₄, ?_⟩
  refine spec_storeField_then fun m₅ hm₅ => ?_
  have heq₅ : EqOff w.nvm.mem m₅ e.nvmEntry 64 :=
    hm₅ ▸ (hbehind heq₄).1.store _ (by omega) (by simp only [stateF]; omega)
  have hst₅ : field m₅ e.nvmEntry stateF = stateInitializing := by
    rw [hm₅]
    exact field_store_self
  have hnvm₅ : OnNvm m₅ e := by
    refine ⟨?_, ?_⟩
    · rw [hid, ← range_map_getD]
      refine List.map_congr_left fun j hj => ?_
      rw [List.mem_range] at hj
      rw [← hcopy j hj, hm₅, store_eqOff _ _ _ _ _ (Or.inr (by simp only [stateF]; omega)), hm₄,
        store_eqOff _ _ _ _ _ (Or.inl (by simp only [otPtrF, maxIdLength] at hj ⊢; omega)), hm₃,
        store_eqOff _ _ _ _ _ (Or.inl (by simp only [maxIdLength] at hj; omega))]
    · rw [hm₅, field_store_of_ne (by decide), hm₄, field_store_self]
      exact Nat.mod_eq_of_lt hlt
  exact ⟨hC m₅ heq₅ (Or.inr ⟨hst₅, hnvm₅⟩), spec_persist.mpr ⟨m₅, rfl, heq₅, hst₅, hnvm₅⟩⟩

/-- `nvm_activate_id` -/
theorem nvmActivateId_spec (h : ProcInv L w live) (ht : TableInv w)
    (hget : otGet w.ot id = some e) (hr : r ∈ live) (hptr : r.ptr = e.dataPtr)
    (hactive : r.active = false) :
    Spec (nvmActivateId id) (ActivateIdImage L w live r e)
      (fun _ w' => ∃ L', ProcInv L' w' (setActive r.ptr live) ∧ TableInv w' ∧
        w'.nvmStart = w.nvmStart ∧ (∀ e', ActiveEntry w' e' ↔ ActiveEntry w e' ∨ e' = e) ∧
        Evolves True L w.nvm.mem L' w'.nvm.mem)
      (fun _ => False) w := by
  have hmem := (otGet_has hget).1
  have hentry := ht.ot.entry hmem
  have hs : e.slot < 1260 := lt_of_lt_of_le hentry.slot ht.ot.next
  unfold nvmActivateId
  rw [spec_bind, spec_get]
  simp only [hget]
  refine Spec.bind (persistId_spec (ht.ot.id_of_otGet hget) hentry.ptr fun m hoff hst => ?_) ?_
  · rcases hst with hst | ⟨hst, hnvm⟩
    · exact .writing hoff hst
    · exact .region hoff hst hnvm .start
  rintro _ _ ⟨m, rfl, hoff, hst, hnvm⟩
  have hoff' : EqOff w.nvm.mem m (otSlotAddr e.slot) 64 := hentry.addr ▸ hoff
  have h₁ := h.setSlot hs hoff' fun _ => by
    rw [← hentry.addr, hnvm.ptr, ← hptr]
    exact h.logged_ptr hr
  rw [← hptr]
  refine Spec.bind ((nvmActivate_spec h₁ hr hactive (by simp [LinkOk]) (by simp [LinkOk])).mono
    (fun img himg => .region hoff hst hnvm himg) (fun _ _ h => h) fun _ h => h) ?_
  rintro _ w₂ ⟨L₂, h₂, hu, hevolves⟩
  -- the slot is marked as initialized
  change Spec _ _ _ _ (w₂.setMem w₂.nvm.mem)
  refine spec_storeField_then fun m₃ hm₃ => ?_
  have hoff₃ : EqOff w₂.nvm.mem m₃ (otSlotAddr e.slot) 64 := by
    rw [hm₃, hentry.addr]
    exact (EqOff.refl _ _ _).store _ (by omega) (by simp only [stateF]; omega)
  have hst₃ : field m₃ e.nvmEntry stateF = stateInitialized := by
    rw [hm₃]
    exact field_store_self
  have h₃ := h₂.setSlot hs hoff₃ fun hst => by
    rw [← hentry.addr, hst₃] at hst
    exact absurd hst (by decide)
  have hnvm₃ : OnNvm m₃ e := by
    have heq : EqOn m w₂.nvm.mem e.nvmEntry 64 := hentry.addr ▸ hu.slot_eqOn hs
    obtain ⟨hid, hfield⟩ := hnvm.congr heq
    refine ⟨hid ▸ List.map_congr_left fun k _ => ?_, hfield ▸ ?_⟩
    · rw [hm₃, store_eqOff _ _ _ _ _ (Or.inr (by simp only [stateF]; omega))]
    · rw [hm₃, field_store_of_ne (by decide)]
  have ht₃ : TableInv (w₂.setMem m₃) := by
    have hslot := otSlotAddr_bounds (s := e.slot)
    refine ht.step hu.ot (fun c hc => ?_) fun s hs' => ?_
    · have heq : EqOn w.nvm.mem m (4194304 * c) 64 := hoff'.eqOn (by omega)
      exact (heq.trans ((hu.table c hc).mono le_rfl (by omega))).trans (hoff₃.eqOn (by omega))
    · by_cases hse : s = e.slot
      · subst hse
        rw [← hentry.addr]
        refine Or.inr ⟨fun hst => ?_, fun _ => ⟨e, ⟨_, hmem⟩, rfl, hnvm₃⟩⟩
        rw [show field (w₂.setMem m₃).nvm.mem e.nvmEntry stateF = _ from hst₃] at hst
        exact absurd hst (by decide)
      · have hd := otSlotAddr_disjoint hse
        exact Or.inl (((hoff'.eqOn hd).trans (hu.slot_eqOn hs')).trans (hoff₃.eqOn hd))
  have hactive₃ : ∀ e', ActiveEntry (w₂.setMem m₃) e' ↔ ActiveEntry w e' ∨ e' = e := by
    intro e'
    have hhas : (w₂.setMem m₃).ot.Has e' ↔ w.ot.Has e' := by
      show w₂.ot.Has e' ↔ _
      rw [hu.ot]
      rfl
    unfold ActiveEntry
    rw [hhas]
    by_cases hee : e' = e
    · subst hee
      refine iff_of_true ⟨⟨_, hmem⟩, ?_⟩ (Or.inr rfl)
      unfold SlotUsed
      rw [← hentry.addr]
      exact hst₃
    · rw [or_iff_left hee]
      refine and_congr_right fun he' => ?_
      have hse : e'.slot ≠ e.slot := fun heq => hee (ht.ot.slots he' ⟨_, hmem⟩ heq)
      have hd := otSlotAddr_disjoint hse
      exact slotUsed_eqOn (((hoff'.eqOn hd).trans (hu.slot_eqOn (ht.slot_lt he'))).trans (hoff₃.eqOn hd))
  have hbefore : Evolves True L w.nvm.mem L m :=
    .headers fun _ _ hq => h.toHeapInv.eqOn_slot hs hoff' hq
  have hafter : Evolves True L₂ w₂.nvm.mem L₂ m₃ :=
    .headers fun _ _ hq => h₂.toHeapInv.eqOn_slot hs hoff₃ hq
  refine ⟨.done h₃ ht₃ hu.ot hst₃, spec_persist.mpr ⟨L₂, h₃, ht₃, hu.nvmStart, hactive₃,
    (hbefore.trans (fun _ _ => trivial) hevolves).trans (fun _ _ => trivial) hafter⟩⟩

/-! ## Free -/

/-- The images of `nvm_free_id`: the slot is marked, then the region is freed. -/
inductive FreeIdImage (L : Layout) (w : World) (r : Region) (e : OtEntry) : Nvm → Prop where
  | start : FreeIdImage L w r e w.nvm
  | region {m : Mem} {img : Nvm} (hoff : EqOff w.nvm.mem m e.nvmEntry 64)
      (hst : field m e.nvmEntry stateF = stateFreeing)
      (himg : FreeImage L (w.setMem m) r none none img) : FreeIdImage L w r e img

/-- The first store of `nvm_free_id` marks the slot and is seen by nobody else. -/
theorem ProcInv.markFreeing (h : ProcInv L w live) (ht : TableInv w) (he : w.ot.Has e) {m : Mem}
    (hm : m = store w.nvm.mem (e.nvmEntry + stateF.off) stateF.width stateFreeing) :
    EqOff w.nvm.mem m (otSlotAddr e.slot) 64 ∧ field m e.nvmEntry stateF = stateFreeing ∧
      ProcInv L (w.setMem m) live ∧ TableInv (w.setMem m) := by
  obtain ⟨b, hmem⟩ := he
  have hentry := ht.ot.entry hmem
  have hs : e.slot < 1260 := lt_of_lt_of_le hentry.slot ht.ot.next
  have hslot := otSlotAddr_bounds (s := e.slot)
  have hoff : EqOff w.nvm.mem m (otSlotAddr e.slot) 64 := by
    rw [hm, hentry.addr]
    exact (EqOff.refl _ _ _).store _ (by omega) (by simp only [stateF]; omega)
  have hst : field m e.nvmEntry stateF = stateFreeing := by
    rw [hm]
    exact field_store_self
  refine ⟨hoff, hst, h.setSlot hs hoff fun hst' => ?_, ?_⟩
  · rw [← hentry.addr, hst] at hst'
    exact absurd hst' (by decide)
  · refine ht.step rfl (fun c hc => hoff.eqOn (by omega)) fun s hs' => ?_
    by_cases hse : s = e.slot
    · subst hse
      rw [← hentry.addr]
      refine Or.inr ?_
      rw [show field (w.setMem m).nvm.mem e.nvmEntry stateF = _ from hst]
      exact ⟨by decide, fun h => absurd h (by decide)⟩
    · exact Or.inl (hoff.eqOn (otSlotAddr_disjoint hse))

/-- `nvm_free_id` -/
theorem nvmFreeId_spec (h : ProcInv L w live) (ht : TableInv w) (hget : otGet w.ot id = some e)
    (hr : r ∈ live) (hptr : r.ptr = e.dataPtr) (hactive : r.active = true) :
    Spec (nvmFreeId id) (FreeIdImage L w r e)
      (fun _ w' => ∃ L', ProcInv L' w' (dropRegion r.ptr live) ∧ TableInv w' ∧
        w'.nvmStart = w.nvmStart ∧ (∀ e', ActiveEntry w' e' ↔ ActiveEntry w e' ∧ e' ≠ e) ∧
        Evolves True L w.nvm.mem L' w'.nvm.mem)
      (fun stop => stop = .diverges) w := by
  have hmem := (otGet_has hget).1
  have hentry := ht.ot.entry hmem
  have hs : e.slot < 1260 := lt_of_lt_of_le hentry.slot ht.ot.next
  have hslot := otSlotAddr_bounds (s := e.slot)
  unfold nvmFreeId
  rw [spec_bind, spec_get]
  simp only [hget]
  change Spec _ _ _ _ (w.setMem w.nvm.mem)
  refine spec_storeField_then fun m hm => ?_
  obtain ⟨hoff, hst, h₁, ht₁⟩ := h.markFreeing ht ⟨_, hmem⟩ hm
  refine ⟨.region (hentry.addr ▸ hoff) hst .start, spec_persist_then ?_⟩
  rw [← hptr]
  refine Spec.bind ((nvmFree_spec h₁ hr hactive (by simp [LinkOk]) (by simp [LinkOk])).mono
    (fun img himg => .region (hentry.addr ▸ hoff) hst himg) (fun _ _ h => h) fun _ h => h.elim) ?_
  rintro _ w₂ ⟨L₂, h₂, hu, hevolves⟩
  have hbefore : Evolves True L w.nvm.mem L m :=
    .headers fun _ _ hq => h.toHeapInv.eqOn_slot hs hoff hq
  have ht₂ := ht₁.of_untouched hu
  have hget₂ : otGet w₂.ot id = some e := by
    rw [hu.ot]
    exact hget
  refine Spec.bind (otRemove_spec ht₂.ot hget₂) ?_
  rintro _ _ ⟨ot', rfl, hot, hhas⟩
  rw [spec_pure]
  refine ⟨L₂, h₂.setOt ot', ht₂.setOt hot fun e' he' hst' => (hhas e').mpr ⟨he', fun hee => ?_⟩,
    hu.nvmStart, fun e' => ?_, hbefore.trans (fun _ _ => trivial) hevolves⟩
  · -- the removed entry is marked as being freed
    subst hee
    rw [← hentry.addr, field_eqOn (hentry.addr ▸ hu.slot_eqOn hs) (by decide), setMem_nvm, hst] at hst'
    exact absurd hst' (by decide)
  · have hactive₂ : ActiveEntry (w₂.setOt ot') e' ↔ ActiveEntry w₂ e' ∧ e' ≠ e := by
      unfold ActiveEntry
      show ot'.Has e' ∧ _ ↔ _
      rw [hhas e', and_right_comm]
      rfl
    rw [hactive₂, hu.activeEntry ht₁]
    refine and_congr_left fun hee => and_congr_right fun he' => ?_
    have hse : e'.slot ≠ e.slot := fun heq => hee (ht.ot.slots he' ⟨_, hmem⟩ heq)
    exact slotUsed_eqOn (hoff.eqOn (otSlotAddr_disjoint hse))

end NvmMalloc
