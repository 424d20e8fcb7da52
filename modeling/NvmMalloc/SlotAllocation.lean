import NvmMalloc.Lib.Interleaving
import NvmMalloc.Lib.Threads
import NvmMalloc.SlotQueue

/-!
# Concurrent insertions and removals

Reference: `src/object_table.c` (`ot_insert`, `ot_remove`).

`ot_insert` and `ot_remove` share the slot queue without a lock.  Here any number of calls with distinct
identifiers run interleaved.  The hash map operations and every `__sync` builtin are one step each; the
plain `slot_buffer_n_free += 1` is a load and a store.

The plain increments lose updates: a fetch-and-sub between the load and the store of an increment is
forgotten, the counter then shows a freed slot too many, and an insertion reads `slot_buffer` at an index
that no removal has filled (`unfilled_index_read`).  As long as nobody changes the counter while another
call is inside an increment, `slot_allocation_exclusive` gives both halves of the intended protocol: the
slots of the live entries are distinct, and every index that is read has been filled and is read once.
-/

namespace NvmMalloc

open Memory CrashM Interleaving Threads

deriving instance DecidableEq for OtEntry

/-! ## The steps of a call -/

/-- `int16_t`, the type of `slot_buffer_n_free`. -/
def int16 (x : ℤ) : ℤ := (x + 2 ^ 15) % 2 ^ 16 - 2 ^ 15

theorem int16_of_mem {x : ℤ} (hlo : -2 ^ 15 ≤ x) (hhi : x < 2 ^ 15) : int16 x = x := by
  unfold int16
  omega

/-- Where a call is; the arguments are its local variables. -/
inductive OtPc where
  /-- Before the first look at the hash map. -/
  | start
  /-- Before `__sync_fetch_and_sub(&slot_buffer_n_free, 1)`. -/
  | fetchSub
  /-- Before the load and before the store of `slot_buffer_n_free += 1` in `ot_insert`. -/
  | addLoad
  | addStore (v : ℤ)
  /-- Before `__sync_fetch_and_add(&next_nvm_slot, 1)`. -/
  | fetchNext
  /-- Before `__sync_fetch_and_sub(&next_nvm_slot, 1)`. -/
  | giveBack
  /-- Before `__sync_fetch_and_add(&slot_buffer_head_idx, 1)`. -/
  | fetchHead
  /-- Before the read of `slot_buffer[h]`. -/
  | readSlot (h : ℕ)
  /-- Before `HASHMAP_INSERT`. -/
  | put (slot : ℕ)
  /-- Before `chainhash_del`. -/
  | delete (entry : OtEntry)
  /-- Before `__sync_fetch_and_add(&slot_buffer_next_idx, 1)`. -/
  | fetchIdx (slot : ℕ)
  /-- Before `slot_buffer[free_slot_idx] = entry->slot`. -/
  | fill (slot freeSlotIdx : ℕ)
  /-- Before a compare-and-swap on `slot_buffer_tail_idx`. -/
  | publish (freeSlotIdx : ℕ)
  /-- Before the load and before the store of `slot_buffer_n_free += 1` in `ot_remove`. -/
  | countLoad (freeSlotIdx : ℕ)
  | countStore (freeSlotIdx : ℕ) (v : ℤ)
  | done (r : OtResult)
deriving DecidableEq

/-- One step of the call `c`. -/
def otStep (c : OtCall) (ot : ObjectTable) : OtPc → Option (ObjectTable × OtPc)
  | .start =>
    match c with
    | .insert id _ => some (ot, if (otGet ot id).isSome then .done .duplicate else .fetchSub)
    | .remove id =>
      match otGet ot id with
      | none => some (ot, .done .fail)
      | some entry => some (ot, .delete entry)
  | .fetchSub =>
    some ({ ot with slotBufferNFree := int16 (ot.slotBufferNFree - 1) },
      if ot.slotBufferNFree ≤ 0 then .addLoad else .fetchHead)
  | .addLoad => some (ot, .addStore ot.slotBufferNFree)
  | .addStore v => some ({ ot with slotBufferNFree := int16 (v + 1) }, .fetchNext)
  | .fetchNext =>
    some ({ ot with nextNvmSlot := ot.nextNvmSlot + 1 },
      if ot.nextNvmSlot ≥ ot.totalSlotsAvailable then .giveBack else .put ot.nextNvmSlot)
  | .giveBack => some ({ ot with nextNvmSlot := ot.nextNvmSlot - 1 }, .done .fail)
  | .fetchHead =>
    some ({ ot with slotBufferHeadIdx := ot.slotBufferHeadIdx + 1 }, .readSlot ot.slotBufferHeadIdx)
  | .readSlot h => some (ot, .put (ot.slotBuffer h))
  | .put slot =>
    match c with
    | .insert id dataPtr =>
      some (hashmapInsert ot ⟨id.take maxIdLength, slot, dataPtr, otSlotAddr slot⟩, .done .ok)
    | .remove _ => none
  | .delete entry =>
    some ({ ot with
      hashmap := Function.update ot.hashmap (bucketOf c.id) ((ot.hashmap (bucketOf c.id)).erase entry) },
      .fetchIdx entry.slot)
  | .fetchIdx slot =>
    some ({ ot with slotBufferNextIdx := ot.slotBufferNextIdx + 1 },
      .fill slot (ot.slotBufferNextIdx % slotBufferSize))
  | .fill slot idx =>
    some ({ ot with slotBuffer := Function.update ot.slotBuffer idx slot }, .publish idx)
  | .publish idx =>
    -- the loop spins until the compare-and-swap succeeds
    if ot.slotBufferTailIdx = (idx : ℤ) - 1 then
      some ({ ot with slotBufferTailIdx := idx }, .countLoad idx)
    else
      some (ot, .publish idx)
  | .countLoad idx => some (ot, .countStore idx ot.slotBufferNFree)
  | .countStore _ v => some ({ ot with slotBufferNFree := int16 (v + 1) }, .done .ok)
  | .done _ => none

/-- The index that a step fills. -/
def OtPc.fills : OtPc → List ℕ
  | .fill _ idx => [idx]
  | _ => []

/-- The index that a step consumes. -/
def OtPc.consumes : OtPc → List ℕ
  | .readSlot h => [h]
  | _ => []

/-! ## A call alone

The sequential `otInsert` and `otRemove` are the runs of these steps that nothing interrupts. -/

/-- The steps of a call that runs alone. -/
def OtCall.Alone (c : OtCall) : ObjectTable × OtPc → ObjectTable × OtPc → Prop :=
  Relation.ReflTransGen fun x y => otStep c x.1 x.2 = some y

section

variable {w : World} {C : Nvm → Prop} {id : List UInt8} {dataPtr : ℕ} {ot : ObjectTable}

/-- An insertion that runs alone restores the counter to what it found. -/
theorem alone_dip {c : OtCall} (hempty : ot.slotBufferNFree ≤ 0) (hlow : -2 ^ 15 < ot.slotBufferNFree) :
    c.Alone (ot, .fetchSub) (ot, .fetchNext) := by
  have hsub : int16 (ot.slotBufferNFree - 1) = ot.slotBufferNFree - 1 :=
    int16_of_mem (by omega) (by omega)
  have hadd : int16 (ot.slotBufferNFree - 1 + 1) = ot.slotBufferNFree := by
    rw [sub_add_cancel]
    exact int16_of_mem hlow.le (by omega)
  have hstep₁ : otStep c ot .fetchSub =
      some ({ ot with slotBufferNFree := ot.slotBufferNFree - 1 }, .addLoad) := by
    simp only [otStep, if_pos hempty, hsub]
  have hstep₃ : otStep c { ot with slotBufferNFree := ot.slotBufferNFree - 1 }
      (.addStore (ot.slotBufferNFree - 1)) = some (ot, .fetchNext) := by
    simp only [otStep, hadd]
  exact .head hstep₁ (.head rfl (.single hstep₃))

/-- `ot_insert` is the run of its steps without interruption. -/
theorem otInsert_alone (h : OtInv w.ot) :
    Spec (otInsert id dataPtr) C
      (fun r w' => ∃ ot', w' = w.setOt ot' ∧
        (OtCall.insert id dataPtr).Alone (w.ot, .start) (ot', .done r))
      (fun _ => False) w := by
  have hn := h.queue.nFree
  have hle := h.queue.le
  have hsize := h.queue.size
  simp only [slotBufferSize] at hsize
  unfold otInsert
  rw [spec_bind, spec_get, spec_ite]
  refine ⟨fun hsome => ?_, fun hnone => ?_⟩
  · refine spec_pure.mpr ⟨w.ot, rfl, .single ?_⟩
    simp only [otStep, if_pos hsome]
  have hstart : otStep (.insert id dataPtr) w.ot .start = some (w.ot, .fetchSub) := by
    simp only [otStep, if_neg hnone]
  refine (otTakeSlot_cases h).bind ?_
  rintro res w' (⟨rfl, rfl, hempty, hfull⟩ | ⟨rfl, rfl, hempty, hroom⟩ | ⟨rfl, rfl, hpos⟩)
  · refine spec_pure.mpr ⟨w'.ot, rfl, .head hstart ((alone_dip hempty (by omega)).trans ?_)⟩
    have hnext : otStep (.insert id dataPtr) w'.ot .fetchNext =
        some ({ w'.ot with nextNvmSlot := w'.ot.nextNvmSlot + 1 }, .giveBack) := by
      simp only [otStep, if_pos hfull]
    exact .head hnext (.single rfl)
  · show Spec (modify _ >>= _) _ _ _ _
    rw [spec_bind, spec_modify, spec_pure]
    refine ⟨_, rfl, .head hstart ((alone_dip hempty (by omega)).trans ?_)⟩
    have hnext : otStep (.insert id dataPtr) w.ot .fetchNext =
        some ({ w.ot with nextNvmSlot := w.ot.nextNvmSlot + 1 }, .put w.ot.nextNvmSlot) := by
      simp only [otStep, if_neg (not_le.mpr hroom)]
    exact .head hnext (.single rfl)
  · show Spec (modify _ >>= _) _ _ _ _
    rw [spec_bind, spec_modify, spec_pure]
    refine ⟨_, rfl, .head hstart ?_⟩
    have hclaim : otStep (.insert id dataPtr) w.ot .fetchSub =
        some ({ w.ot with slotBufferNFree := w.ot.slotBufferNFree - 1 }, .fetchHead) := by
      simp only [otStep, if_neg (not_le.mpr hpos),
        int16_of_mem (show -2 ^ 15 ≤ w.ot.slotBufferNFree - 1 by omega)
        (show w.ot.slotBufferNFree - 1 < 2 ^ 15 by omega)]
    exact .head hclaim (.head rfl (.head rfl (.single rfl)))

/-- The entry found first is the one that `erase` takes out. -/
theorem eraseP_eq_erase_of_find? {l : List OtEntry} {p : OtEntry → Bool} {e : OtEntry}
    (h : l.find? p = some e) : l.eraseP p = l.erase e := by
  induction l with
  | nil => rfl
  | cons x l ih =>
    by_cases hx : p x = true
    · rw [List.find?_cons_of_pos hx] at h
      obtain rfl := Option.some.inj h
      rw [List.eraseP_cons_of_pos hx, List.erase_cons_head]
    · rw [List.find?_cons_of_neg hx] at h
      have hne : x ≠ e := by
        rintro rfl
        exact hx (List.find?_some h)
      rw [List.eraseP_cons_of_neg hx, List.erase_cons_tail (by simpa using hne), ih h]

/-- `ot_remove` is the run of its steps without interruption; where the sequential model diverges, the
compare-and-swap spins. -/
theorem otRemove_alone (h : OtInv w.ot) :
    Spec (otRemove id) C
      (fun r w' => ∃ ot', w' = w.setOt ot' ∧ (OtCall.remove id).Alone (w.ot, .start) (ot', .done r))
      (fun _ => ∃ ot' idx, (OtCall.remove id).Alone (w.ot, .start) (ot', .publish idx) ∧
        otStep (.remove id) ot' (.publish idx) = some (ot', .publish idx)) w := by
  have hn := h.queue.nFree
  have hle := h.queue.le
  have hsize := h.queue.size
  simp only [slotBufferSize] at hsize
  unfold otRemove
  rw [spec_bind, spec_get]
  cases hget : otGet w.ot id with
  | none =>
    refine spec_pure.mpr ⟨w.ot, rfl, .single ?_⟩
    simp only [otStep, hget]
  | some e =>
    simp only
    have hstart : otStep (.remove id) w.ot .start = some (w.ot, .delete e) := by
      simp only [otStep, hget]
    have herase := eraseP_eq_erase_of_find? hget
    have hfilled : (OtCall.remove id).Alone (w.ot, .start) ({ w.ot with
        hashmap := Function.update w.ot.hashmap (bucketOf id)
          ((w.ot.hashmap (bucketOf id)).eraseP fun e => equalFn id e.id)
        slotBufferNextIdx := w.ot.slotBufferNextIdx + 1
        slotBuffer := Function.update w.ot.slotBuffer (w.ot.slotBufferNextIdx % slotBufferSize) e.slot },
        .publish (w.ot.slotBufferNextIdx % slotBufferSize)) := by
      rw [herase]
      exact .head hstart (.head rfl (.head rfl (.single rfl)))
    rw [spec_bind, spec_modify, spec_ite]
    refine ⟨fun htail => ?_, fun htail => ?_⟩
    · rw [spec_bind, spec_modify, spec_pure]
      refine ⟨_, rfl, hfilled.trans ?_⟩
      have hcount : int16 (w.ot.slotBufferNFree + 1) = w.ot.slotBufferNFree + 1 :=
        int16_of_mem (by omega) (by omega)
      refine .head (by simp only [otStep]; rw [if_pos htail]) (.head rfl (.single ?_))
      simp only [otStep, hcount]
      rfl
    · refine spec_throw.mpr ⟨_, _, hfilled, ?_⟩
      simp only [otStep]
      rw [if_neg htail]

end

/-! ## The calls together -/

/-- Calls with distinct identifiers. -/
structure OtCalls (ι : Type) where
  call : ι → OtCall
  distinct : ∀ {i j}, equalFn (call i).id (call j).id = true → i = j

/-- The object table, the calls and the history of the slot buffer: the indices filled and those whose
slot has been read. -/
structure OtSys (ι : Type) where
  ot : ObjectTable
  pc : ι → OtPc
  filled : List ℕ
  consumed : List ℕ

variable {ι : Type} [DecidableEq ι]

/-- One step of the call of `i`. -/
def otSysStep (cs : OtCalls ι) (s : OtSys ι) (i : ι) : Option (OtSys ι) :=
  (otStep (cs.call i) s.ot (s.pc i)).map fun r =>
    ⟨r.1, Function.update s.pc i r.2, (s.pc i).fills ++ s.filled, (s.pc i).consumes ++ s.consumed⟩

/-- The calls begin at a table in order, whose queue earlier removals or recovery have filled. -/
structure OtSys.Init (s : OtSys ι) : Prop where
  ot : OtInv s.ot
  pc : ∀ i, s.pc i = .start
  filled : s.filled = List.range s.ot.slotBufferNextIdx
  consumed : s.consumed = List.range s.ot.slotBufferHeadIdx

/-- Slots are given out exclusively: the live entries have distinct slots, and an index that is about to
be read has been filled and was not read before. -/
structure SlotsExclusive (s : OtSys ι) : Prop where
  live : s.ot.liveSlots.Nodup
  filled : ∀ i h, s.pc i = .readSlot h → h ∈ s.filled
  fresh : ∀ i h, s.pc i = .readSlot h → h ∉ s.consumed

/-- The value of the counter that a call inside an increment has loaded. -/
def OtPc.loaded : OtPc → Option ℤ
  | .addStore v | .countStore _ v => some v
  | _ => none

/-- A step that changes `slot_buffer_n_free`. -/
def OtPc.ChangesCounter : OtPc → Prop
  | .fetchSub | .addStore _ | .countStore _ _ => True
  | _ => False

/-- The increments are not disturbed: nobody changes the counter between the load and the store of
another call, and the counter does not run below the range of its type. -/
structure CounterUndisturbed (s : OtSys ι) (i : ι) : Prop where
  alone : (s.pc i).ChangesCounter → ∀ j, j ≠ i → (s.pc j).loaded = none
  range : s.pc i = .fetchSub → -2 ^ 15 < s.ot.slotBufferNFree

/-! ## The queue

`T` indices are published.  Of these the counter counts the set `counted`; an insertion that finds the
counter positive claims one of them before it fetches its index, and an insertion that finds none is in a
dip until it has restored the counter. -/

/-- A call that has taken the counter down in vain. -/
def OtPc.Dips : OtPc → Prop
  | .addLoad | .addStore _ => True
  | _ => False

/-- The index that a call is about to read. -/
def OtPc.reading : OtPc → Option ℕ
  | .readSlot h => some h
  | _ => none

/-- The index that a call has published and not counted. -/
def OtPc.counting : OtPc → Option ℕ
  | .countLoad idx | .countStore idx _ => some idx
  | _ => none

/-- What a call knows about the queue. -/
def OtPc.Knows (s : OtSys ι) (T : ℕ) (counted : Finset ℕ) : OtPc → Prop
  | .readSlot h => h < s.ot.slotBufferHeadIdx ∧ h < T ∧ h ∉ s.consumed
  | .fill _ idx => idx < slotBufferSize
  | .publish idx => idx < slotBufferSize ∧ idx ∈ s.filled
  | .countLoad idx | .countStore idx _ => idx < T ∧ idx ∉ counted
  | _ => True

/-- The state of the queue: `c` calls have a claim and `d` are in a dip. -/
structure QueueState (s : OtSys ι) (T c d : ℕ) (counted : Finset ℕ) : Prop where
  tail : s.ot.slotBufferTailIdx = (T : ℤ) - 1
  size : T ≤ slotBufferSize
  filled : ∀ k < T, k ∈ s.filled
  consumed : ∀ k ∈ s.consumed, k < s.ot.slotBufferHeadIdx
  counted_lt : ∀ k ∈ counted, k < T
  claims : Census (· = .fetchHead) s.pc c
  dips : Census OtPc.Dips s.pc d
  nFree : s.ot.slotBufferNFree = (counted.card : ℤ) - s.ot.slotBufferHeadIdx - c - d
  low : -2 ^ 15 ≤ s.ot.slotBufferNFree
  enough : s.ot.slotBufferHeadIdx + c ≤ counted.card
  loaded : ∀ i v, (s.pc i).loaded = some v → s.ot.slotBufferNFree = v
  knows : ∀ i, (s.pc i).Knows s T counted
  readers : Exclusive fun i h => (s.pc i).reading = some h
  counters : Exclusive fun i k => (s.pc i).counting = some k

section

variable {cs : OtCalls ι} {s s' : OtSys ι} {i j : ι} {T c d : ℕ} {counted : Finset ℕ} {q : OtPc}
  {ot : ObjectTable}

omit [DecidableEq ι] in
/-- There are at most as many counted indices as published ones. -/
theorem QueueState.card_le (h : QueueState s T c d counted) : counted.card ≤ T := by
  have hsub : counted ⊆ Finset.range T := fun k hk => Finset.mem_range.mpr (h.counted_lt k hk)
  have hcard := Finset.card_le_card hsub
  rwa [Finset.card_range] at hcard

omit [DecidableEq ι] in
/-- What a call knows stays true while the queue moves on, unless another call takes its index. -/
theorem OtPc.Knows.mono {T' : ℕ} {counted' : Finset ℕ} {p : OtPc} (h : p.Knows s T counted)
    (hhead : s.ot.slotBufferHeadIdx ≤ s'.ot.slotBufferHeadIdx) (hT : T ≤ T')
    (hfilled : ∀ k ∈ s.filled, k ∈ s'.filled)
    (hconsumed : ∀ k, p.reading = some k → k ∈ s'.consumed → k ∈ s.consumed)
    (hcounted : ∀ k, p.counting = some k → k ∈ counted' → k ∈ counted) : p.Knows s' T' counted' := by
  cases p with
  | readSlot k => exact ⟨h.1.trans_le hhead, h.2.1.trans_le hT, fun hk => h.2.2 (hconsumed k rfl hk)⟩
  | publish k => exact ⟨h.1, hfilled k h.2⟩
  | countLoad k => exact ⟨h.1.trans_le hT, fun hk => h.2 (hcounted k rfl hk)⟩
  | countStore k _ => exact ⟨h.1.trans_le hT, fun hk => h.2 (hcounted k rfl hk)⟩
  | _ => exact h

/-- The loaded values, after a step that leaves the counter alone. -/
theorem loaded_update {n : ℤ} (h : ∀ j v, (s.pc j).loaded = some v → n = v)
    (hq : ∀ v, q.loaded = some v → n = v) (j : ι) (v : ℤ)
    (hj : (Function.update s.pc i q j).loaded = some v) : n = v := by
  by_cases hji : j = i
  · subst hji
    rw [Function.update_self] at hj
    exact hq v hj
  · rw [Function.update_of_ne hji] at hj
    exact h j v hj

/-- The loaded values, after a step that changes the counter while nobody else is inside an
increment. -/
theorem loaded_none {n : ℤ} (h : ∀ j, j ≠ i → (s.pc j).loaded = none) (hq : q.loaded = none) (j : ι)
    (v : ℤ) (hj : (Function.update s.pc i q j).loaded = some v) : n = v := by
  by_cases hji : j = i
  · subst hji
    rw [Function.update_self, hq] at hj
    cases hj
  · rw [Function.update_of_ne hji, h j hji] at hj
    cases hj

/-- A fact about every call, after a step of one of them. -/
theorem forall_update {P : OtPc → Prop} (h : ∀ j, j ≠ i → P (s.pc j)) (hq : P q) (j : ι) :
    P (Function.update s.pc i q j) := by
  by_cases hji : j = i
  · subst hji
    rwa [Function.update_self]
  · rw [Function.update_of_ne hji]
    exact h j hji

/-- A call lets go of an index, or has none. -/
theorem exclusive_update {f : OtPc → Option ℕ} (h : Exclusive fun i k => f (s.pc i) = some k)
    (hq : ∀ k, f q = some k → f (s.pc i) = some k) :
    Exclusive fun j k => f (Function.update s.pc i q j) = some k := by
  refine h.drop fun j k hj => ?_
  by_cases hji : j = i
  · subst hji
    rw [Function.update_self] at hj
    exact hq k hj
  · rwa [Function.update_of_ne hji] at hj

/-- A call gets hold of an index that nobody had. -/
theorem exclusive_update_new {f : OtPc → Option ℕ} {k : ℕ} (h : Exclusive fun i k => f (s.pc i) = some k)
    (hq : f q = some k) (hnew : ∀ j, f (s.pc j) ≠ some k) :
    Exclusive fun j k => f (Function.update s.pc i q j) = some k := by
  refine h.bring (b := i) hnew fun j k' hj => ?_
  by_cases hji : j = i
  · subst hji
    rw [Function.update_self, hq] at hj
    exact Or.inl ⟨rfl, (Option.some.inj hj).symm⟩
  · rw [Function.update_of_ne hji] at hj
    exact Or.inr hj

/-- A step that leaves the queue alone. -/
theorem QueueState.frame (h : QueueState s T c d counted)
    (htail : ot.slotBufferTailIdx = s.ot.slotBufferTailIdx)
    (hhead : ot.slotBufferHeadIdx = s.ot.slotBufferHeadIdx)
    (hn : ot.slotBufferNFree = s.ot.slotBufferNFree)
    (hclaim : q = .fetchHead ↔ s.pc i = .fetchHead) (hdip : q.Dips ↔ (s.pc i).Dips)
    (hload : ∀ v, q.loaded = some v → s.ot.slotBufferNFree = v) (hknows : q.Knows s T counted)
    (hread : q.reading = none) (hcount : ∀ k, q.counting = some k → (s.pc i).counting = some k) :
    QueueState ⟨ot, Function.update s.pc i q, s.filled, s.consumed⟩ T c d counted where
  tail := htail.trans h.tail
  size := h.size
  filled := h.filled
  consumed k hk := hhead ▸ h.consumed k hk
  counted_lt := h.counted_lt
  claims := h.claims.stay hclaim
  dips := h.dips.stay hdip
  nFree := by
    show ot.slotBufferNFree = _
    rw [hn, h.nFree, hhead]
  low := hn ▸ h.low
  enough := hhead ▸ h.enough
  loaded := by
    rw [hn]
    exact loaded_update h.loaded hload
  knows := by
    intro j
    have hj : (Function.update s.pc i q j).Knows s T counted :=
      forall_update (P := fun p => p.Knows s T counted) (fun j _ => h.knows j) hknows j
    exact hj.mono hhead.ge le_rfl (fun _ => id) (fun _ _ => id) fun _ _ => id
  readers := exclusive_update h.readers fun k hk => by simp [hread] at hk
  counters := exclusive_update h.counters hcount

/-- A step that changes the counter while nobody else is inside an increment. -/
theorem QueueState.recount (h : QueueState s T c d counted) {c' d' : ℕ} {counted' : Finset ℕ} {n : ℤ}
    (hguard : CounterUndisturbed s i) (hpc : (s.pc i).ChangesCounter)
    (hload : q.loaded = none) (hread : q.reading = none) (hcount : q.counting = none)
    (hlt : ∀ k ∈ counted', k < T) (hothers : ∀ j, j ≠ i → (s.pc j).Knows s T counted')
    (hknows : q.Knows s T counted') (hclaims : Census (· = .fetchHead) (Function.update s.pc i q) c')
    (hdips : Census OtPc.Dips (Function.update s.pc i q) d')
    (hn : n = (counted'.card : ℤ) - s.ot.slotBufferHeadIdx - c' - d')
    (hlow : -2 ^ 15 ≤ n) (henough : s.ot.slotBufferHeadIdx + c' ≤ counted'.card) :
    QueueState ⟨{ s.ot with slotBufferNFree := n }, Function.update s.pc i q, s.filled, s.consumed⟩
      T c' d' counted' where
  tail := h.tail
  size := h.size
  filled := h.filled
  consumed := h.consumed
  counted_lt := hlt
  claims := hclaims
  dips := hdips
  nFree := hn
  low := hlow
  enough := henough
  loaded := loaded_none (hguard.alone hpc) hload
  knows := forall_update hothers hknows
  readers := exclusive_update h.readers fun k hk => by simp [hread] at hk
  counters := exclusive_update h.counters fun k hk => by simp [hcount] at hk

/-- An insertion finds a freed slot and claims one. -/
theorem QueueState.claim (h : QueueState s T c d counted) (hpc : s.pc i = .fetchSub)
    (hguard : CounterUndisturbed s i) (hpos : 0 < s.ot.slotBufferNFree) :
    QueueState ⟨{ s.ot with slotBufferNFree := int16 (s.ot.slotBufferNFree - 1) },
      Function.update s.pc i .fetchHead, s.filled, s.consumed⟩ T (c + 1) d counted := by
  have hcard := h.card_le
  have hsize := h.size
  have hn := h.nFree
  simp only [slotBufferSize] at hsize
  rw [int16_of_mem (by omega) (by omega)]
  refine h.recount hguard (by simp [hpc, OtPc.ChangesCounter]) rfl rfl rfl h.counted_lt
    (fun j _ => h.knows j) trivial (h.claims.enter (by simp [hpc]) rfl)
    (h.dips.stay (by simp [hpc, OtPc.Dips])) ?_ (by omega) ?_
  · push_cast
    omega
  · -- the counter is positive, so one more claim is covered
    omega

/-- An insertion finds no freed slot. -/
theorem QueueState.dip (h : QueueState s T c d counted) (hpc : s.pc i = .fetchSub)
    (hguard : CounterUndisturbed s i) :
    QueueState ⟨{ s.ot with slotBufferNFree := int16 (s.ot.slotBufferNFree - 1) },
      Function.update s.pc i .addLoad, s.filled, s.consumed⟩ T c (d + 1) counted := by
  have hcard := h.card_le
  have hsize := h.size
  have hn := h.nFree
  have hlow := hguard.range hpc
  simp only [slotBufferSize] at hsize
  rw [int16_of_mem (by omega) (by omega)]
  refine h.recount hguard (by simp [hpc, OtPc.ChangesCounter]) rfl rfl rfl h.counted_lt
    (fun j _ => h.knows j) trivial (h.claims.stay (by simp [hpc]))
    (h.dips.enter (by simp [hpc, OtPc.Dips]) trivial) ?_ (by omega) h.enough
  push_cast
  omega

/-- An insertion restores the counter. -/
theorem QueueState.undip (h : QueueState s T c d counted) {v : ℤ} (hpc : s.pc i = .addStore v)
    (hguard : CounterUndisturbed s i) :
    QueueState ⟨{ s.ot with slotBufferNFree := int16 (v + 1) },
      Function.update s.pc i .fetchNext, s.filled, s.consumed⟩ T c (d - 1) counted := by
  have hcard := h.card_le
  have hsize := h.size
  have hn := h.nFree
  have hlow := h.low
  have hv := h.loaded i v (by simp [hpc, OtPc.loaded])
  have hdip : (s.pc i).Dips := by simp [hpc, OtPc.Dips]
  have hpos := h.dips.pos hdip
  have hdips : Census OtPc.Dips s.pc (d - 1 + 1) := by
    rw [Nat.sub_add_cancel hpos]
    exact h.dips
  simp only [slotBufferSize] at hsize
  rw [int16_of_mem (by omega) (by omega)]
  exact h.recount hguard (by simp [hpc, OtPc.ChangesCounter]) rfl rfl rfl h.counted_lt
    (fun j _ => h.knows j) trivial (h.claims.stay (by simp [hpc]))
    (hdips.leave hdip (by simp [OtPc.Dips])) (by omega) (by omega) h.enough

/-- A removal counts the index that it has published. -/
theorem QueueState.count (h : QueueState s T c d counted) {idx : ℕ} {v : ℤ}
    (hpc : s.pc i = .countStore idx v) (hguard : CounterUndisturbed s i) :
    QueueState ⟨{ s.ot with slotBufferNFree := int16 (v + 1) },
      Function.update s.pc i (.done .ok), s.filled, s.consumed⟩ T c d (insert idx counted) := by
  have hcard := h.card_le
  have hsize := h.size
  have hn := h.nFree
  have hlow := h.low
  have hv := h.loaded i v (by simp [hpc, OtPc.loaded])
  obtain ⟨hidx, hnot⟩ : idx < T ∧ idx ∉ counted := by
    have hknows := h.knows i
    rwa [hpc] at hknows
  have hinsert : (insert idx counted).card = counted.card + 1 := Finset.card_insert_of_notMem hnot
  have henough := h.enough
  simp only [slotBufferSize] at hsize
  rw [int16_of_mem (by omega) (by omega)]
  refine h.recount hguard (by simp [hpc, OtPc.ChangesCounter]) rfl rfl rfl ?_ ?_ trivial
    (h.claims.stay (by simp [hpc])) (h.dips.stay (by simp [hpc, OtPc.Dips])) ?_ (by omega) (by omega)
  · intro k hk
    rcases Finset.mem_insert.mp hk with rfl | hk
    · exact hidx
    · exact h.counted_lt k hk
  · -- the other calls that are still to count have published other indices
    intro j hj
    refine (h.knows j).mono le_rfl le_rfl (fun _ => id) (fun _ _ => id) fun k hk hmem => ?_
    rcases Finset.mem_insert.mp hmem with rfl | hmem
    · exact absurd (h.counters hk (by simp [hpc, OtPc.counting])) hj
    · exact hmem
  · rw [hinsert]
    push_cast
    omega

/-- An insertion with a claim fetches its index. -/
theorem QueueState.fetch (h : QueueState s T c d counted) (hpc : s.pc i = .fetchHead) :
    QueueState ⟨{ s.ot with slotBufferHeadIdx := s.ot.slotBufferHeadIdx + 1 },
      Function.update s.pc i (.readSlot s.ot.slotBufferHeadIdx), s.filled, s.consumed⟩
      T (c - 1) d counted := by
  have hcard := h.card_le
  have henough := h.enough
  have hpos := h.claims.pos hpc
  have hclaims : Census (· = .fetchHead) s.pc (c - 1 + 1) := by
    rw [Nat.sub_add_cancel hpos]
    exact h.claims
  exact {
    tail := h.tail
    size := h.size
    filled := h.filled
    consumed := fun k hk => (h.consumed k hk).trans (Nat.lt_succ_self _)
    counted_lt := h.counted_lt
    claims := hclaims.leave hpc (by simp)
    dips := h.dips.stay (by simp [hpc, OtPc.Dips])
    nFree := by
      have hn := h.nFree
      show s.ot.slotBufferNFree = _
      push_cast
      omega
    low := h.low
    enough := by
      show s.ot.slotBufferHeadIdx + 1 + (c - 1) ≤ counted.card
      omega
    loaded := loaded_update h.loaded fun v hv => by simp [OtPc.loaded] at hv
    knows := by
      refine forall_update (fun j _ => (h.knows j).mono (Nat.le_succ _) le_rfl (fun _ => id)
        (fun _ _ => id) fun _ _ => id) ?_
      -- the claim was covered by a counted, hence published, index
      refine ⟨Nat.lt_succ_self _, by omega, fun hmem => ?_⟩
      exact absurd (h.consumed _ hmem) (lt_irrefl _)
    readers := by
      refine exclusive_update_new h.readers rfl fun j hj => ?_
      have hknows := h.knows j
      cases hpcj : s.pc j <;> rw [hpcj] at hj hknows <;> simp only [OtPc.reading, reduceCtorEq] at hj
      cases hj
      exact absurd hknows.1 (lt_irrefl _)
    counters := exclusive_update h.counters fun k hk => by simp [OtPc.counting] at hk }

/-- An insertion reads the slot at its index. -/
theorem QueueState.read (h : QueueState s T c d counted) {k slot : ℕ} (hpc : s.pc i = .readSlot k) :
    QueueState ⟨s.ot, Function.update s.pc i (.put slot), s.filled, k :: s.consumed⟩ T c d counted where
  tail := h.tail
  size := h.size
  filled := h.filled
  consumed := by
    have hknows := h.knows i
    rw [hpc] at hknows
    intro k' hk'
    rcases List.mem_cons.mp hk' with rfl | hk'
    · exact hknows.1
    · exact h.consumed k' hk'
  counted_lt := h.counted_lt
  claims := h.claims.stay (by simp [hpc])
  dips := h.dips.stay (by simp [hpc, OtPc.Dips])
  nFree := h.nFree
  low := h.low
  enough := h.enough
  loaded := loaded_update h.loaded fun v hv => by simp [OtPc.loaded] at hv
  knows := by
    refine forall_update (fun j hj => ?_) trivial
    refine (h.knows j).mono le_rfl le_rfl (fun _ => id) (fun k' hk' hmem => ?_) fun _ _ => id
    -- no other call is about to read this index
    rcases List.mem_cons.mp hmem with rfl | hmem
    · exact absurd (h.readers hk' (by simp [hpc, OtPc.reading])) hj
    · exact hmem
  readers := exclusive_update h.readers fun k hk => by simp [OtPc.reading] at hk
  counters := exclusive_update h.counters fun k hk => by simp [OtPc.counting] at hk

/-- A removal stores its slot. -/
theorem QueueState.fill (h : QueueState s T c d counted) {slot idx : ℕ} (hpc : s.pc i = .fill slot idx) :
    QueueState ⟨{ s.ot with slotBuffer := Function.update s.ot.slotBuffer idx slot },
      Function.update s.pc i (.publish idx), idx :: s.filled, s.consumed⟩ T c d counted where
  tail := h.tail
  size := h.size
  filled k hk := List.mem_cons_of_mem _ (h.filled k hk)
  consumed := h.consumed
  counted_lt := h.counted_lt
  claims := h.claims.stay (by simp [hpc])
  dips := h.dips.stay (by simp [hpc, OtPc.Dips])
  nFree := h.nFree
  low := h.low
  enough := h.enough
  loaded := loaded_update h.loaded fun v hv => by simp [OtPc.loaded] at hv
  knows := by
    have hidx := h.knows i
    rw [hpc] at hidx
    refine forall_update (fun j _ => (h.knows j).mono le_rfl le_rfl
      (fun k hk => List.mem_cons_of_mem _ hk) (fun _ _ => id) fun _ _ => id) ?_
    exact ⟨hidx, List.mem_cons_self⟩
  readers := exclusive_update h.readers fun k hk => by simp [OtPc.reading] at hk
  counters := exclusive_update h.counters fun k hk => by simp [OtPc.counting] at hk

/-- A removal publishes its index. -/
theorem QueueState.publish (h : QueueState s T c d counted) {idx : ℕ} (hpc : s.pc i = .publish idx)
    (htail : s.ot.slotBufferTailIdx = (idx : ℤ) - 1) :
    QueueState ⟨{ s.ot with slotBufferTailIdx := idx }, Function.update s.pc i (.countLoad idx),
      s.filled, s.consumed⟩ (T + 1) c d counted := by
  obtain rfl : idx = T := by
    have htail' := h.tail
    omega
  have hknows : idx < slotBufferSize ∧ idx ∈ s.filled := by
    have hknows := h.knows i
    rwa [hpc] at hknows
  exact {
    tail := by
      show (idx : ℤ) = _
      push_cast
      ring
    size := hknows.1
    filled := fun k hk => by
      rcases Nat.lt_succ_iff_lt_or_eq.mp hk with hk | rfl
      · exact h.filled k hk
      · exact hknows.2
    consumed := h.consumed
    counted_lt := fun k hk => (h.counted_lt k hk).trans (Nat.lt_succ_self _)
    claims := h.claims.stay (by simp [hpc])
    dips := h.dips.stay (by simp [hpc, OtPc.Dips])
    nFree := h.nFree
    low := h.low
    enough := h.enough
    loaded := loaded_update h.loaded fun v hv => by simp [OtPc.loaded] at hv
    knows := by
      refine forall_update (fun j _ => (h.knows j).mono le_rfl (Nat.le_succ _) (fun _ => id)
        (fun _ _ => id) fun _ _ => id) ?_
      exact ⟨Nat.lt_succ_self _, fun hmem => absurd (h.counted_lt idx hmem) (lt_irrefl _)⟩
    readers := exclusive_update h.readers fun k hk => by simp [OtPc.reading] at hk
    counters := by
      -- an index that is still to be counted has been published before
      refine exclusive_update_new h.counters rfl fun j hj => ?_
      have hj' := h.knows j
      cases hpcj : s.pc j <;> rw [hpcj] at hj hj' <;> simp only [OtPc.counting, reduceCtorEq] at hj
      all_goals
        cases hj
        exact absurd hj'.1 (lt_irrefl _) }

end

/-! ## The slots

Every slot below `u` has at most one owner: a live entry, a call that carries it, or an index of the
slot buffer that is filled and not yet consumed. -/

/-- Who may have a slot. -/
inductive SlotOwner (ι : Type) where
  | entry (e : OtEntry)
  | call (i : ι)
  | index (k : ℕ)

/-- The slot that a call carries. -/
def OtPc.held : OtPc → Option ℕ
  | .put slot | .fetchIdx slot | .fill slot _ => some slot
  | _ => none

/-- The owner has the slot. -/
def OtSys.Owns (s : OtSys ι) : SlotOwner ι → ℕ → Prop
  | .entry e, x => s.ot.Has e ∧ e.slot = x
  | .call i, x => (s.pc i).held = some x
  | .index k, x => k ∈ s.filled ∧ k ∉ s.consumed ∧ s.ot.slotBuffer k = x

/-- The state of the slots: `u` of them have been given out from the end of the used ones, and `g` calls
have found the end and are about to take `next_nvm_slot` back. -/
structure SlotState (cs : OtCalls ι) (s : OtSys ι) (g u : ℕ) : Prop where
  back : Census (· = .giveBack) s.pc g
  next : s.ot.nextNvmSlot = u + g
  total : u ≤ s.ot.totalSlotsAvailable
  exhausted : 0 < g → u = s.ot.totalSlotsAvailable
  unique : Exclusive s.Owns
  bound : ∀ {o x}, s.Owns o x → x < u
  nodup : ∀ b, (s.ot.hashmap b).Nodup
  keyed : ∀ {b e}, e ∈ s.ot.hashmap b → bucketOf e.id = b
  deleting : ∀ {i e}, s.pc i = .delete e →
    e ∈ s.ot.hashmap (bucketOf (cs.call i).id) ∧ equalFn (cs.call i).id e.id = true

section

variable {cs : OtCalls ι} {s : OtSys ι} {i : ι} {g u : ℕ} {q : OtPc} {ot : ObjectTable}

/-- The entries found by removals, after a step of one call that leaves the hash map alone. -/
theorem deleting_update (h : SlotState cs s g u)
    (hq : ∀ e, q = .delete e →
      e ∈ s.ot.hashmap (bucketOf (cs.call i).id) ∧ equalFn (cs.call i).id e.id = true) {j : ι}
      {e : OtEntry}
    (hj : Function.update s.pc i q j = .delete e) :
    e ∈ s.ot.hashmap (bucketOf (cs.call j).id) ∧ equalFn (cs.call j).id e.id = true := by
  by_cases hji : j = i
  · subst hji
    rw [Function.update_self] at hj
    exact hq e hj
  · rw [Function.update_of_ne hji] at hj
    exact h.deleting hj

/-- What a call carries after a step. -/
theorem held_update {j : ι} {x : ℕ} (hj : (Function.update s.pc i q j).held = some x) :
    (j = i ∧ q.held = some x) ∨ (j ≠ i ∧ (s.pc j).held = some x) := by
  by_cases hji : j = i
  · subst hji
    rw [Function.update_self] at hj
    exact Or.inl ⟨rfl, hj⟩
  · rw [Function.update_of_ne hji] at hj
    exact Or.inr ⟨hji, hj⟩

/-- A step that leaves the slots alone. -/
theorem SlotState.frame (h : SlotState cs s g u) (hmap : ot.hashmap = s.ot.hashmap)
    (hbuf : ot.slotBuffer = s.ot.slotBuffer) (hnext : ot.nextNvmSlot = s.ot.nextNvmSlot)
    (htotal : ot.totalSlotsAvailable = s.ot.totalSlotsAvailable)
    (hback : q = .giveBack ↔ s.pc i = .giveBack)
    (hheld : ∀ x, q.held = some x → (s.pc i).held = some x)
    (hdel : ∀ e, q = .delete e →
      e ∈ s.ot.hashmap (bucketOf (cs.call i).id) ∧ equalFn (cs.call i).id e.id = true) :
    SlotState cs ⟨ot, Function.update s.pc i q, s.filled, s.consumed⟩ g u := by
  have howns : ∀ o x, OtSys.Owns ⟨ot, Function.update s.pc i q, s.filled, s.consumed⟩ o x →
      s.Owns o x := by
    intro o x ho
    cases o with
    | entry e =>
      obtain ⟨⟨b, hb⟩, hx⟩ := ho
      exact ⟨⟨b, hmap ▸ hb⟩, hx⟩
    | call j =>
      rcases held_update ho with ⟨rfl, hq⟩ | ⟨-, hj⟩
      · exact hheld x hq
      · exact hj
    | index k =>
      obtain ⟨hf, hc, hx⟩ := ho
      exact ⟨hf, hc, hbuf ▸ hx⟩
  exact {
    back := h.back.stay hback
    next := hnext.trans h.next
    total := htotal ▸ h.total
    exhausted := fun hg => (h.exhausted hg).trans htotal.symm
    unique := h.unique.drop howns
    bound := fun ho => h.bound (howns _ _ ho)
    nodup := fun b => hmap ▸ h.nodup b
    keyed := fun hb => h.keyed (hmap ▸ hb)
    deleting := fun hj => hmap ▸ deleting_update h hdel hj }

/-- Only what the calls carry changes, and `next_nvm_slot`. -/
theorem SlotState.owns_next {n : ℕ} {o : SlotOwner ι} {x : ℕ}
    (ho : OtSys.Owns ⟨{ s.ot with nextNvmSlot := n }, Function.update s.pc i q, s.filled,
      s.consumed⟩ o x) :
    (o = .call i ∧ q.held = some x) ∨ s.Owns o x := by
  cases o with
  | entry e => exact Or.inr ho
  | call j =>
    rcases held_update ho with ⟨rfl, hq⟩ | ⟨-, hj⟩
    · exact Or.inl ⟨rfl, hq⟩
    · exact Or.inr hj
  | index k => exact Or.inr ho

/-- An insertion takes the slot after the used ones. -/
theorem SlotState.takeNext (h : SlotState cs s g u) (hpc : s.pc i = .fetchNext)
    (hlt : s.ot.nextNvmSlot < s.ot.totalSlotsAvailable) :
    SlotState cs ⟨{ s.ot with nextNvmSlot := s.ot.nextNvmSlot + 1 },
      Function.update s.pc i (.put s.ot.nextNvmSlot), s.filled, s.consumed⟩ g (u + 1) := by
  -- nobody is about to give a slot back, for then the counter would be past the end
  have hnext := h.next
  have hg : g = 0 := by
    by_contra hg
    have hexhausted := h.exhausted (Nat.pos_of_ne_zero hg)
    omega
  subst hg
  have howns : ∀ o x, OtSys.Owns ⟨{ s.ot with nextNvmSlot := s.ot.nextNvmSlot + 1 },
      Function.update s.pc i (.put s.ot.nextNvmSlot), s.filled, s.consumed⟩ o x →
      (o = .call i ∧ x = u) ∨ s.Owns o x := by
    intro o x ho
    rcases SlotState.owns_next ho with ⟨hi, hx⟩ | hold
    · refine Or.inl ⟨hi, ?_⟩
      rw [← Option.some.inj hx, hnext, Nat.add_zero]
    · exact Or.inr hold
  exact {
    back := h.back.stay (by simp [hpc])
    next := by
      show s.ot.nextNvmSlot + 1 = _
      omega
    total := by
      show u + 1 ≤ s.ot.totalSlotsAvailable
      omega
    exhausted := fun hg => absurd hg (lt_irrefl 0)
    unique := h.unique.bring (fun o ho => lt_irrefl u (h.bound ho)) howns
    bound := fun {o x} ho => by
      rcases howns o x ho with ⟨-, rfl⟩ | hold
      · exact Nat.lt_succ_self _
      · exact (h.bound hold).trans (Nat.lt_succ_self _)
    nodup := h.nodup
    keyed := h.keyed
    deleting := deleting_update h (by simp) }

/-- An insertion finds all slots used. -/
theorem SlotState.overflow (h : SlotState cs s g u) (hpc : s.pc i = .fetchNext)
    (hge : s.ot.totalSlotsAvailable ≤ s.ot.nextNvmSlot) :
    SlotState cs ⟨{ s.ot with nextNvmSlot := s.ot.nextNvmSlot + 1 },
      Function.update s.pc i .giveBack, s.filled, s.consumed⟩ (g + 1) u := by
  have hnext := h.next
  have htotal := h.total
  have howns : ∀ o x, OtSys.Owns ⟨{ s.ot with nextNvmSlot := s.ot.nextNvmSlot + 1 },
      Function.update s.pc i .giveBack, s.filled, s.consumed⟩ o x → s.Owns o x := by
    intro o x ho
    rcases SlotState.owns_next ho with ⟨-, hx⟩ | hold
    · simp [OtPc.held] at hx
    · exact hold
  exact {
    back := h.back.enter (by simp [hpc]) rfl
    next := by
      show s.ot.nextNvmSlot + 1 = _
      omega
    total := htotal
    exhausted := fun _ => by
      show u = s.ot.totalSlotsAvailable
      rcases Nat.eq_zero_or_pos g with rfl | hg
      · omega
      · exact h.exhausted hg
    unique := h.unique.drop howns
    bound := fun ho => h.bound (howns _ _ ho)
    nodup := h.nodup
    keyed := h.keyed
    deleting := deleting_update h (by simp) }

/-- An insertion takes `next_nvm_slot` back. -/
theorem SlotState.giveBack (h : SlotState cs s g u) {r : OtResult} (hpc : s.pc i = .giveBack) :
    SlotState cs ⟨{ s.ot with nextNvmSlot := s.ot.nextNvmSlot - 1 },
      Function.update s.pc i (.done r), s.filled, s.consumed⟩ (g - 1) u := by
  have hnext := h.next
  have hpos := h.back.pos hpc
  have hback : Census (· = .giveBack) s.pc (g - 1 + 1) := by
    rw [Nat.sub_add_cancel hpos]
    exact h.back
  have howns : ∀ o x, OtSys.Owns ⟨{ s.ot with nextNvmSlot := s.ot.nextNvmSlot - 1 },
      Function.update s.pc i (.done r), s.filled, s.consumed⟩ o x → s.Owns o x := by
    intro o x ho
    rcases SlotState.owns_next ho with ⟨-, hx⟩ | hold
    · simp [OtPc.held] at hx
    · exact hold
  exact {
    back := hback.leave hpc (by simp)
    next := by
      show s.ot.nextNvmSlot - 1 = _
      omega
    total := h.total
    exhausted := fun _ => h.exhausted hpos
    unique := h.unique.drop howns
    bound := fun ho => h.bound (howns _ _ ho)
    nodup := h.nodup
    keyed := h.keyed
    deleting := deleting_update h (by simp) }

/-- A slot moves from `a` to `b`. -/
theorem SlotState.move (h : SlotState cs s g u) {a b : SlotOwner ι} {x : ℕ} {filled consumed : List ℕ}
    (hnext : ot.nextNvmSlot = s.ot.nextNvmSlot)
    (htotal : ot.totalSlotsAvailable = s.ot.totalSlotsAvailable)
    (hback : q = .giveBack ↔ s.pc i = .giveBack) (ha : s.Owns a x)
    (howns : ∀ o y, OtSys.Owns ⟨ot, Function.update s.pc i q, filled, consumed⟩ o y →
      (o = b ∧ y = x) ∨ (o ≠ a ∧ s.Owns o y))
    (hnodup : ∀ b, (ot.hashmap b).Nodup) (hkeyed : ∀ {b e}, e ∈ ot.hashmap b → bucketOf e.id = b)
    (hdel : ∀ {j e}, Function.update s.pc i q j = .delete e →
      e ∈ ot.hashmap (bucketOf (cs.call j).id) ∧ equalFn (cs.call j).id e.id = true) :
    SlotState cs ⟨ot, Function.update s.pc i q, filled, consumed⟩ g u where
  back := h.back.stay hback
  next := hnext.trans h.next
  total := htotal ▸ h.total
  exhausted hg := (h.exhausted hg).trans htotal.symm
  unique := h.unique.move ha howns
  bound {o y} ho := by
    rcases howns o y ho with ⟨-, rfl⟩ | ⟨-, hold⟩
    · exact h.bound ha
    · exact h.bound hold
  nodup := hnodup
  keyed := hkeyed
  deleting := hdel

/-- An insertion takes a slot out of the slot buffer. -/
theorem SlotState.read (h : SlotState cs s g u) {k : ℕ} (hpc : s.pc i = .readSlot k)
    (hfilled : k ∈ s.filled) (hfresh : k ∉ s.consumed) :
    SlotState cs ⟨s.ot, Function.update s.pc i (.put (s.ot.slotBuffer k)), s.filled, k :: s.consumed⟩
      g u := by
  refine h.move (a := .index k) (b := .call i) rfl rfl (by simp [hpc]) ⟨hfilled, hfresh, rfl⟩ ?_
    h.nodup h.keyed (deleting_update h (by simp))
  intro o y ho
  cases o with
  | entry e => exact Or.inr ⟨nofun, ho⟩
  | call j =>
    rcases held_update ho with ⟨rfl, hq⟩ | ⟨-, hj⟩
    · exact Or.inl ⟨rfl, (Option.some.inj hq).symm⟩
    · exact Or.inr ⟨nofun, hj⟩
  | index k' =>
    obtain ⟨hf, hc, hx⟩ := ho
    obtain ⟨hne, hc⟩ := not_or.mp (List.mem_cons.not.mp hc)
    exact Or.inr ⟨fun heq => hne (SlotOwner.index.inj heq), hf, hc, hx⟩

/-- A removal puts its slot into the slot buffer.  What was at the index before is overwritten. -/
theorem SlotState.fill (h : SlotState cs s g u) {slot idx : ℕ} (hpc : s.pc i = .fill slot idx) :
    SlotState cs ⟨{ s.ot with slotBuffer := Function.update s.ot.slotBuffer idx slot },
      Function.update s.pc i (.publish idx), idx :: s.filled, s.consumed⟩ g u := by
  have ha : s.Owns (.call i) slot := by
    show (s.pc i).held = some slot
    rw [hpc]
    rfl
  refine h.move (a := .call i) (b := .index idx) rfl rfl (by simp [hpc]) ha ?_ h.nodup h.keyed
    (deleting_update h (by simp))
  intro o y ho
  cases o with
  | entry e => exact Or.inr ⟨nofun, ho⟩
  | call j =>
    rcases held_update ho with ⟨rfl, hq⟩ | ⟨hne, hj⟩
    · simp [OtPc.held] at hq
    · exact Or.inr ⟨fun heq => hne (SlotOwner.call.inj heq), hj⟩
  | index k =>
    obtain ⟨hf, hc, hx⟩ := ho
    by_cases hk : k = idx
    · subst hk
      rw [← hx]
      exact Or.inl ⟨rfl, Function.update_self ..⟩
    · refine Or.inr ⟨nofun, ?_, hc, ?_⟩
      · exact (List.mem_cons.mp hf).resolve_left hk
      · rw [← hx]
        exact (Function.update_of_ne hk ..).symm

/-- An insertion makes its entry. -/
theorem SlotState.put (h : SlotState cs s g u) {e : OtEntry} {r : OtResult}
    (hpc : s.pc i = .put e.slot) :
    SlotState cs ⟨hashmapInsert s.ot e, Function.update s.pc i (.done r), s.filled, s.consumed⟩ g u := by
  have ha : s.Owns (.call i) e.slot := by
    show (s.pc i).held = some e.slot
    rw [hpc]
    rfl
  -- the slot is carried by the call, so no entry with it is in the table
  have hnot : ¬ s.ot.Has e := fun he =>
    nomatch h.unique (show s.Owns (.entry e) e.slot from ⟨he, rfl⟩) ha
  refine h.move (a := .call i) (b := .entry e) rfl rfl (by simp [hpc]) ha ?_
    (nodup_hashmapInsert hnot h.nodup) ?_ ?_
  · intro o y ho
    cases o with
    | entry e' =>
      obtain ⟨⟨b, hb⟩, hx⟩ := ho
      rcases mem_hashmapInsert.mp hb with ⟨rfl, -⟩ | hold
      · exact Or.inl ⟨rfl, hx.symm⟩
      · exact Or.inr ⟨nofun, ⟨b, hold⟩, hx⟩
    | call j =>
      rcases held_update ho with ⟨rfl, hq⟩ | ⟨hne, hj⟩
      · simp [OtPc.held] at hq
      · exact Or.inr ⟨fun heq => hne (SlotOwner.call.inj heq), hj⟩
    | index k => exact Or.inr ⟨nofun, ho⟩
  · intro b e' he'
    rcases mem_hashmapInsert.mp he' with ⟨rfl, hb⟩ | hold
    · exact hb.symm
    · exact h.keyed hold
  · intro j e' hj
    have hold := deleting_update h (by simp) hj
    exact ⟨mem_hashmapInsert.mpr (Or.inr hold.1), hold.2⟩

/-- A removal takes its entry out. -/
theorem SlotState.delete (h : SlotState cs s g u) {e : OtEntry} (hpc : s.pc i = .delete e) :
    SlotState cs ⟨{ s.ot with
        hashmap := Function.update s.ot.hashmap (bucketOf (cs.call i).id)
          ((s.ot.hashmap (bucketOf (cs.call i).id)).erase e) },
      Function.update s.pc i (.fetchIdx e.slot), s.filled, s.consumed⟩ g u := by
  obtain ⟨he, heq⟩ := h.deleting hpc
  have hmem : ∀ {b e'}, e' ∈ Function.update s.ot.hashmap (bucketOf (cs.call i).id)
      ((s.ot.hashmap (bucketOf (cs.call i).id)).erase e) b ↔ e' ≠ e ∧ e' ∈ s.ot.hashmap b := by
    intro b e'
    by_cases hb : b = bucketOf (cs.call i).id
    · subst hb
      rw [Function.update_self]
      exact (h.nodup _).mem_erase_iff
    · rw [Function.update_of_ne hb]
      refine ⟨fun he' => ⟨?_, he'⟩, And.right⟩
      rintro rfl
      exact hb ((h.keyed he').symm.trans (h.keyed he))
  refine h.move (a := .entry e) (b := .call i) rfl rfl (by simp [hpc]) ⟨⟨_, he⟩, rfl⟩ ?_ ?_ ?_ ?_
  · intro o y ho
    cases o with
    | entry e' =>
      obtain ⟨⟨b, hb⟩, hx⟩ := ho
      obtain ⟨hne, hold⟩ := hmem.mp hb
      exact Or.inr ⟨fun heq => hne (SlotOwner.entry.inj heq), ⟨b, hold⟩, hx⟩
    | call j =>
      rcases held_update ho with ⟨rfl, hq⟩ | ⟨-, hj⟩
      · exact Or.inl ⟨rfl, (Option.some.inj hq).symm⟩
      · exact Or.inr ⟨nofun, hj⟩
    | index k => exact Or.inr ⟨nofun, ho⟩
  · intro b
    by_cases hb : b = bucketOf (cs.call i).id
    · subst hb
      show (Function.update s.ot.hashmap _ _ _).Nodup
      rw [Function.update_self]
      exact (h.nodup _).erase e
    · show (Function.update s.ot.hashmap _ _ _).Nodup
      rw [Function.update_of_ne hb]
      exact h.nodup b
  · intro b e' he'
    exact h.keyed (hmem.mp he').2
  · intro j e' hj
    obtain ⟨he', heq'⟩ := deleting_update h (by simp) hj
    refine ⟨hmem.mpr ⟨?_, he'⟩, heq'⟩
    -- two removals with distinct identifiers have found distinct entries
    rintro rfl
    rw [equalFn_iff] at heq heq'
    obtain rfl := cs.distinct (equalFn_iff.mpr (heq'.trans heq.symm))
    rw [Function.update_self] at hj
    cases hj

end

/-! ## Every run -/

/-- The queue and the slots are in order. -/
def OtSys.InOrder (cs : OtCalls ι) (s : OtSys ι) : Prop :=
  (∃ T c d counted, QueueState s T c d counted) ∧ ∃ g u, SlotState cs s g u

section

variable {cs : OtCalls ι} {s s' : OtSys ι} {i : ι}

omit [DecidableEq ι] in
/-- The start. -/
theorem OtSys.Init.inOrder (h : s.Init) : s.InOrder cs := by
  have hq := h.ot.queue
  refine ⟨⟨s.ot.slotBufferNextIdx, 0, 0, Finset.range s.ot.slotBufferNextIdx, ?_⟩, 0,
    s.ot.nextNvmSlot, ?_⟩
  · exact {
      tail := hq.tail
      size := hq.size
      filled := fun k hk => by rwa [h.filled, List.mem_range]
      consumed := fun k hk => by rwa [h.consumed, List.mem_range] at hk
      counted_lt := fun k hk => Finset.mem_range.mp hk
      claims := Census.zero fun j => by simp [h.pc]
      dips := Census.zero fun j => by simp [h.pc, OtPc.Dips]
      nFree := by
        rw [hq.nFree, Finset.card_range]
        push_cast
        ring
      low := by
        rw [hq.nFree]
        have hle := hq.le
        omega
      enough := by
        rw [Finset.card_range]
        exact hq.le
      loaded := fun j v hj => by simp [h.pc, OtPc.loaded] at hj
      knows := fun j => by
        rw [h.pc]
        trivial
      readers := fun j _ k hj => by simp [h.pc, OtPc.reading] at hj
      counters := fun j _ k hj => by simp [h.pc, OtPc.counting] at hj }
  · have hindex : ∀ {k}, k ∈ s.filled → k ∉ s.consumed →
        s.ot.slotBufferHeadIdx ≤ k ∧ k < s.ot.slotBufferNextIdx := by
      intro k hf hc
      rw [h.filled, List.mem_range] at hf
      rw [h.consumed, List.mem_range] at hc
      exact ⟨not_lt.mp hc, hf⟩
    exact {
      back := Census.zero fun j => by simp [h.pc]
      next := rfl
      total := h.ot.total ▸ h.ot.next
      exhausted := fun hg => absurd hg (lt_irrefl 0)
      unique := by
        intro o o' x ho ho'
        cases o with
        | call j => simp [OtSys.Owns, h.pc, OtPc.held] at ho
        | entry e =>
          cases o' with
          | call j => simp [OtSys.Owns, h.pc, OtPc.held] at ho'
          | entry e' => rw [h.ot.slots ho.1 ho'.1 (ho.2.trans ho'.2.symm)]
          | index k =>
            obtain ⟨hlo, hhi⟩ := hindex ho'.1 ho'.2.1
            exact absurd (ho.2.trans ho'.2.2.symm) ((hq.slot k hlo hhi).2 e ho.1)
        | index k =>
          obtain ⟨hlo, hhi⟩ := hindex ho.1 ho.2.1
          cases o' with
          | call j => simp [OtSys.Owns, h.pc, OtPc.held] at ho'
          | entry e' => exact absurd (ho'.2.trans ho.2.2.symm) ((hq.slot k hlo hhi).2 e' ho'.1)
          | index k' =>
            obtain ⟨hlo', hhi'⟩ := hindex ho'.1 ho'.2.1
            have heq := ho.2.2.trans ho'.2.2.symm
            rcases lt_trichotomy k k' with hlt | rfl | hlt
            · exact absurd heq (hq.inj k k' hlo hlt hhi')
            · rfl
            · exact absurd heq.symm (hq.inj k' k hlo' hlt hhi)
      bound := by
        intro o x ho
        cases o with
        | call j => simp [OtSys.Owns, h.pc, OtPc.held] at ho
        | entry e =>
          obtain ⟨⟨b, hb⟩, rfl⟩ := ho
          exact (h.ot.entry hb).slot
        | index k =>
          obtain ⟨hlo, hhi⟩ := hindex ho.1 ho.2.1
          rw [← ho.2.2]
          exact (hq.slot k hlo hhi).1
      nodup := h.ot.nodup
      keyed := fun hb => (h.ot.entry hb).bucket
      deleting := fun {j e} hj => by simp [h.pc] at hj }

/-- A step that touches neither the queue nor the slots. -/
theorem OtSys.InOrder.quiet (h : s.InOrder cs) {q : OtPc} (hclaim : q ≠ .fetchHead ∧ s.pc i ≠ .fetchHead)
    (hdip : q.Dips ↔ (s.pc i).Dips) (hback : q ≠ .giveBack ∧ s.pc i ≠ .giveBack)
    (hload : ∀ v, q.loaded = some v → s.ot.slotBufferNFree = v)
    (hknows : ∀ {T counted}, (s.pc i).Knows s T counted → q.Knows s T counted) (hread : q.reading = none)
    (hcount : ∀ k, q.counting = some k → (s.pc i).counting = some k)
    (hheld : ∀ x, q.held = some x → (s.pc i).held = some x)
    (hdel : ∀ e, q = .delete e →
      e ∈ s.ot.hashmap (bucketOf (cs.call i).id) ∧ equalFn (cs.call i).id e.id = true) :
    OtSys.InOrder cs ⟨s.ot, Function.update s.pc i q, s.filled, s.consumed⟩ := by
  obtain ⟨⟨T, c, d, counted, hq⟩, g, u, hs⟩ := h
  refine ⟨⟨T, c, d, counted, ?_⟩, g, u, ?_⟩
  · exact hq.frame rfl rfl rfl (iff_of_false hclaim.1 hclaim.2) hdip hload (hknows (hq.knows i))
      hread hcount
  · exact hs.frame rfl rfl rfl rfl (iff_of_false hback.1 hback.2) hheld hdel

/-- The first look at the hash map. -/
theorem otStep_start {c : OtCall} {ot ot' : ObjectTable} {q : OtPc}
    (h : otStep c ot .start = some (ot', q)) :
    ot' = ot ∧ (q = .fetchSub ∨ (∃ r, q = .done r) ∨ ∃ e, q = .delete e ∧ otGet ot c.id = some e) := by
  cases c with
  | insert id dataPtr =>
    cases h
    split
    · exact ⟨rfl, Or.inr (Or.inl ⟨_, rfl⟩)⟩
    · exact ⟨rfl, Or.inl rfl⟩
  | remove id =>
    cases hget : otGet ot id with
    | none =>
      simp only [otStep, hget] at h
      cases h
      exact ⟨rfl, Or.inr (Or.inl ⟨_, rfl⟩)⟩
    | some e =>
      simp only [otStep, hget] at h
      cases h
      exact ⟨rfl, Or.inr (Or.inr ⟨e, rfl, hget⟩)⟩

/-- **Every undisturbed step keeps the queue and the slots in order.** -/
theorem OtSys.InOrder.step (h : s.InOrder cs) (hguard : CounterUndisturbed s i)
    (hstep : otSysStep cs s i = some s') : s'.InOrder cs := by
  obtain ⟨⟨ot, q⟩, hot, rfl⟩ := Option.map_eq_some_iff.mp hstep
  have ⟨⟨T, c, d, counted, hq⟩, g, u, hs⟩ := h
  cases hpc : s.pc i with
  | start =>
    rw [hpc] at hot
    obtain ⟨rfl, rfl | ⟨r, rfl⟩ | ⟨e, rfl, hget⟩⟩ := otStep_start hot
    · exact h.quiet (by simp [hpc]) (by simp [hpc, OtPc.Dips]) (by simp [hpc]) (by simp [OtPc.loaded])
        (fun _ => trivial) rfl (by simp [OtPc.counting]) (by simp [OtPc.held]) (by simp)
    · exact h.quiet (by simp [hpc]) (by simp [hpc, OtPc.Dips]) (by simp [hpc]) (by simp [OtPc.loaded])
        (fun _ => trivial) rfl (by simp [OtPc.counting]) (by simp [OtPc.held]) (by simp)
    · refine h.quiet (by simp [hpc]) (by simp [hpc, OtPc.Dips]) (by simp [hpc]) (by simp [OtPc.loaded])
        (fun _ => trivial) rfl (by simp [OtPc.counting]) (by simp [OtPc.held]) ?_
      intro e' he'
      obtain rfl := OtPc.delete.inj he'
      exact otGet_has hget
  | fetchSub =>
    rw [hpc] at hot
    cases hot
    split
    case isTrue =>
      exact ⟨⟨T, c, d + 1, counted, hq.dip hpc hguard⟩, g, u, hs.frame rfl rfl rfl rfl (by simp [hpc])
        (by simp [OtPc.held]) (by simp)⟩
    case isFalse hpos =>
      exact ⟨⟨T, c + 1, d, counted, hq.claim hpc hguard (not_le.mp hpos)⟩, g, u,
        hs.frame rfl rfl rfl rfl (by simp [hpc]) (by simp [OtPc.held]) (by simp)⟩
  | addLoad =>
    rw [hpc] at hot
    cases hot
    exact h.quiet (by simp [hpc]) (by simp [hpc, OtPc.Dips]) (by simp [hpc]) (by simp [OtPc.loaded])
      (fun _ => trivial) rfl (by simp [OtPc.counting]) (by simp [OtPc.held]) (by simp)
  | addStore v =>
    rw [hpc] at hot
    cases hot
    exact ⟨⟨T, c, d - 1, counted, hq.undip hpc hguard⟩, g, u, hs.frame rfl rfl rfl rfl (by simp [hpc])
      (by simp [OtPc.held]) (by simp)⟩
  | fetchNext =>
    rw [hpc] at hot
    cases hot
    split
    case isTrue hge =>
      refine ⟨⟨T, c, d, counted, ?_⟩, g + 1, u, hs.overflow hpc hge⟩
      exact hq.frame rfl rfl rfl (by simp [hpc]) (by simp [hpc, OtPc.Dips]) (by simp [OtPc.loaded])
        trivial
        rfl (by simp [OtPc.counting])
    case isFalse hlt =>
      refine ⟨⟨T, c, d, counted, ?_⟩, g, u + 1, hs.takeNext hpc (not_le.mp hlt)⟩
      exact hq.frame rfl rfl rfl (by simp [hpc]) (by simp [hpc, OtPc.Dips]) (by simp [OtPc.loaded])
        trivial
        rfl (by simp [OtPc.counting])
  | giveBack =>
    rw [hpc] at hot
    cases hot
    refine ⟨⟨T, c, d, counted, ?_⟩, g - 1, u, hs.giveBack hpc⟩
    exact hq.frame rfl rfl rfl (by simp [hpc]) (by simp [hpc, OtPc.Dips]) (by simp [OtPc.loaded]) trivial
      rfl (by simp [OtPc.counting])
  | fetchHead =>
    rw [hpc] at hot
    cases hot
    exact ⟨⟨T, c - 1, d, counted, hq.fetch hpc⟩, g, u, hs.frame rfl rfl rfl rfl (by simp [hpc])
      (by simp [OtPc.held]) (by simp)⟩
  | readSlot k =>
    rw [hpc] at hot
    cases hot
    have hknows := hq.knows i
    rw [hpc] at hknows
    exact ⟨⟨T, c, d, counted, hq.read hpc⟩, g, u, hs.read hpc (hq.filled k hknows.2.1) hknows.2.2⟩
  | put slot =>
    rw [hpc] at hot
    cases hcall : cs.call i with
    | insert id dataPtr =>
      rw [hcall] at hot
      cases hot
      refine ⟨⟨T, c, d, counted, ?_⟩, g, u, hs.put (e := ⟨_, slot, _, _⟩) hpc⟩
      exact hq.frame rfl rfl rfl (by simp [hpc]) (by simp [hpc, OtPc.Dips]) (by simp [OtPc.loaded])
        trivial
        rfl (by simp [OtPc.counting])
    | remove id =>
      rw [hcall] at hot
      cases hot
  | delete e =>
    rw [hpc] at hot
    cases hot
    refine ⟨⟨T, c, d, counted, ?_⟩, g, u, hs.delete hpc⟩
    exact hq.frame rfl rfl rfl (by simp [hpc]) (by simp [hpc, OtPc.Dips]) (by simp [OtPc.loaded]) trivial
      rfl (by simp [OtPc.counting])
  | fetchIdx slot =>
    rw [hpc] at hot
    cases hot
    refine ⟨⟨T, c, d, counted, ?_⟩, g, u, ?_⟩
    · exact hq.frame rfl rfl rfl (by simp [hpc]) (by simp [hpc, OtPc.Dips]) (by simp [OtPc.loaded])
        (Nat.mod_lt _ (by decide)) rfl (by simp [OtPc.counting])
    · exact hs.frame rfl rfl rfl rfl (by simp [hpc]) (by simp [hpc, OtPc.held]) (by simp)
  | fill slot idx =>
    rw [hpc] at hot
    cases hot
    exact ⟨⟨T, c, d, counted, hq.fill hpc⟩, g, u, hs.fill hpc⟩
  | publish idx =>
    rw [hpc] at hot
    by_cases htail : s.ot.slotBufferTailIdx = (idx : ℤ) - 1
    · simp only [otStep, if_pos htail] at hot
      cases hot
      exact ⟨⟨T + 1, c, d, counted, hq.publish hpc htail⟩, g, u, hs.frame rfl rfl rfl rfl (by simp [hpc])
        (by simp [OtPc.held]) (by simp)⟩
    · simp only [otStep, if_neg htail] at hot
      cases hot
      exact h.quiet (by simp [hpc]) (by simp [hpc]) (by simp [hpc]) (by simp [OtPc.loaded])
        (fun hk => by rwa [hpc] at hk) rfl (by simp [OtPc.counting]) (by simp [OtPc.held]) (by simp)
  | countLoad idx =>
    rw [hpc] at hot
    cases hot
    exact h.quiet (by simp [hpc]) (by simp [hpc, OtPc.Dips]) (by simp [hpc]) (by simp [OtPc.loaded])
      (fun hk => by rwa [hpc] at hk) rfl (by simp [hpc, OtPc.counting]) (by simp [OtPc.held]) (by simp)
  | countStore idx v =>
    rw [hpc] at hot
    cases hot
    exact ⟨⟨T, c, d, _, hq.count hpc hguard⟩, g, u, hs.frame rfl rfl rfl rfl (by simp [hpc])
      (by simp [OtPc.held]) (by simp)⟩
  | done r =>
    rw [hpc] at hot
    cases hot

omit [DecidableEq ι] in
/-- In order, slots are given out exclusively. -/
theorem OtSys.InOrder.exclusive (h : s.InOrder cs) : SlotsExclusive s := by
  obtain ⟨⟨T, c, d, counted, hq⟩, g, u, hs⟩ := h
  refine ⟨s.ot.nodup_liveSlots hs.nodup hs.keyed fun he he' heq => ?_, fun i k hi => ?_,
    fun i k hi => ?_⟩
  · have hown : s.Owns (.entry _) _ := ⟨he, rfl⟩
    have hown' : s.Owns (.entry _) _ := ⟨he', heq.symm⟩
    exact SlotOwner.entry.inj (hs.unique hown hown')
  · have hknows := hq.knows i
    rw [hi] at hknows
    exact hq.filled k hknows.2.1
  · have hknows := hq.knows i
    rw [hi] at hknows
    exact hknows.2.2

end

/-- **Concurrent slot allocation is exclusive as long as the increments of the counter are not
disturbed.**  Any number of insertions and removals with distinct identifiers run interleaved from a
table in order. -/
theorem slot_allocation_exclusive (cs : OtCalls ι) (s : OtSys ι)
    (hrun : Runs OtSys.Init (otSysStep cs) CounterUndisturbed s) : SlotsExclusive s := by
  have horder : s.InOrder cs :=
    Runs.invariant (fun _ hinit => hinit.inOrder) (fun _ _ _ h hguard hstep => h.step hguard hstep) hrun
  exact horder.exclusive

/-- The table after `ot_insert` of `"a"` and `"b"` on an empty one. -/
def twoEntries : ObjectTable :=
  hashmapInsert (hashmapInsert { emptyTable with nextNvmSlot := 2 } ⟨[97], 0, 64, otSlotAddr 0⟩)
    ⟨[98], 1, 128, otSlotAddr 1⟩

theorem twoEntries_otInv : OtInv twoEntries := by
  have hno : ∀ {b e}, e ∉ ({ emptyTable with nextNvmSlot := 2 } : ObjectTable).hashmap b := by
    intro b e
    exact List.not_mem_nil
  have hhas : ∀ e, ¬ ({ emptyTable with nextNvmSlot := 2 } : ObjectTable).Has e :=
    fun e ⟨_, he⟩ => hno he
  have hempty : OtInv { emptyTable with nextNvmSlot := 2 } := by
    refine ⟨rfl, by decide, fun he => absurd he hno, fun _ => List.nodup_nil,
      fun he => absurd he (hhas _), fun he => absurd he (hhas _), ?_⟩
    exact ⟨le_rfl, by decide, rfl, rfl, fun k _ hk => absurd hk (Nat.not_lt_zero k),
      fun _ k _ _ hk => absurd hk (Nat.not_lt_zero k)⟩
  obtain ⟨hone, hiff⟩ := hempty.insert (e := ⟨[97], 0, 64, otSlotAddr 0⟩)
    ⟨rfl, by decide, by decide, by decide, rfl, by decide⟩ (fun e he => absurd he (hhas e))
    (fun k _ hk => absurd hk (Nat.not_lt_zero k)) (fun _ e he => absurd he (hhas e))
  have hfirst : ∀ e, (hashmapInsert { emptyTable with nextNvmSlot := 2 }
      ⟨[97], 0, 64, otSlotAddr 0⟩).Has e →
      e = ⟨[97], 0, 64, otSlotAddr 0⟩ := fun e he => ((hiff e).mp he).resolve_right (hhas e)
  refine (hone.insert (e := ⟨[98], 1, 128, otSlotAddr 1⟩)
    ⟨rfl, by decide, by decide, by decide, rfl, by decide⟩ ?_ ?_ ?_).1
  · intro e he
    rw [hfirst e he]
    decide
  · exact fun k _ hk => absurd hk (Nat.not_lt_zero k)
  · intro _ e he
    rw [hfirst e he]
    decide

/-- Removals of the two entries and three insertions. -/
def fiveCalls : OtCalls (Fin 5) where
  call
    | 0 => .remove [97]
    | 1 => .remove [98]
    | 2 => .insert [99] 192
    | 3 => .insert [100] 256
    | 4 => .insert [101] 320
  distinct := by decide +kernel

/-- The calls on the table with two entries. -/
def fiveCallsStart : OtSys (Fin 5) := ⟨twoEntries, fun _ => .start, [], []⟩

/-- The second removal loads the counter before the first insertion takes it down. -/
def lostUpdate : List (Fin 5) :=
  List.replicate 7 0 ++ List.replicate 6 1 ++ List.replicate 5 2 ++ [1] ++ List.replicate 5 3 ++
    List.replicate 3 4

/-- A step of the five calls that leaves the increments undisturbed. -/
def undisturbedStep (s : OtSys (Fin 5)) (i : Fin 5) : Option (OtSys (Fin 5)) :=
  if (∀ j, j ≠ i → (s.pc j).loaded = none) ∧ -2 ^ 15 < s.ot.slotBufferNFree then
    otSysStep fiveCalls s i
  else
    none

theorem undisturbedStep_spec {s s' : OtSys (Fin 5)} {i : Fin 5} (h : undisturbedStep s i = some s') :
    CounterUndisturbed s i ∧ otSysStep fiveCalls s i = some s' := by
  unfold undisturbedStep at h
  split at h
  case isTrue hok => exact ⟨⟨fun _ => hok.1, fun _ => hok.2⟩, h⟩
  case isFalse => cases h

/-- The first insertion takes the slot that the first removal has freed, while the second removal is
between its store into the slot buffer and the compare-and-swap. -/
theorem slot_allocation_exclusive_reuse :
    ∃ s, Runs OtSys.Init (otSysStep fiveCalls) CounterUndisturbed s ∧
      (s.pc 1 = .publish 1 ∧ s.pc 2 = .readSlot 0) ∧ SlotsExclusive s := by
  have hstart : Runs OtSys.Init (otSysStep fiveCalls) CounterUndisturbed fiveCallsStart :=
    .start ⟨twoEntries_otInv, fun _ => rfl, rfl, rfl⟩
  have hread : (runActions undisturbedStep fiveCallsStart
      (List.replicate 7 0 ++ List.replicate 4 1 ++ List.replicate 3 2)).any
      (fun s => decide (s.pc 1 = .publish 1 ∧ s.pc 2 = .readSlot 0)) = true := by
    decide +kernel
  obtain ⟨s, hs, htest⟩ := hstart.exists_of_checked undisturbedStep_spec hread
  exact ⟨s, hs, of_decide_eq_true htest, slot_allocation_exclusive fiveCalls s hs⟩

/-- **A lost update.**  The second removal loads the counter, 1, and the first insertion takes it down to
0; the removal stores 2.  Two slots are freed and three insertions find the counter positive: the third
is about to read index 2, which nobody has filled, and then shares slot 0 with a live entry. -/
theorem unfilled_index_read :
    (∃ s, Runs OtSys.Init (otSysStep fiveCalls) (fun _ _ => True) s ∧ s.pc 4 = .readSlot 2 ∧
      2 ∉ s.filled) ∧
    ∃ s, Runs OtSys.Init (otSysStep fiveCalls) (fun _ _ => True) s ∧ ¬ s.ot.liveSlots.Nodup := by
  have hstart : Runs OtSys.Init (otSysStep fiveCalls) (fun _ _ => True) fiveCallsStart :=
    .start ⟨twoEntries_otInv, fun _ => rfl, rfl, rfl⟩
  have hread : (runActions (otSysStep fiveCalls) fiveCallsStart lostUpdate).any
      (fun s => decide (s.pc 4 = .readSlot 2 ∧ 2 ∉ s.filled)) = true := by
    decide +kernel
  have hlive : (runActions (otSysStep fiveCalls) fiveCallsStart (lostUpdate ++ [4, 4])).any
      (fun s => decide (¬ s.ot.liveSlots.Nodup)) = true := by
    decide +kernel
  obtain ⟨s, hs, htest⟩ := hstart.exists_of_actions hread
  obtain ⟨s', hs', htest'⟩ := hstart.exists_of_actions hlive
  exact ⟨⟨s, hs, of_decide_eq_true htest⟩, s', hs', of_decide_eq_true htest'⟩

end NvmMalloc
