import NvmMalloc.InitSpec

/-!
# The object table of a running process

Reference: `src/object_table.c`, `src/nvm_malloc.c` (`nvm_reserve_id`, `nvm_activate_id`,
`nvm_free_id`).

The table has 63 slots on the header page of each of the 20 initial chunks.  `OtInv` is the invariant
of its volatile part: every slot belongs to at most one entry or to the queue of freed slots.
`TableInv` ties it to NVM: a slot in state INITIALIZED holds the identifier and the pointer of its
entry.
-/

namespace NvmMalloc

open Memory CrashM

/-! ## Entries on NVM -/

/-- What an initialized slot holds: the identifier, padded with NUL, and the pointer. -/
structure OnNvm (m : Mem) (e : OtEntry) : Prop where
  id : nvmIdBytes m e.nvmEntry = e.id ++ List.replicate (maxIdLength - e.id.length) 0
  ptr : field m e.nvmEntry otPtrF = e.dataPtr

theorem nvmIdBytes_eqOn {m m' : Mem} {e : ℕ} (h : EqOn m m' e 64) :
    nvmIdBytes m' e = nvmIdBytes m e := by
  refine List.map_congr_left fun k hk => ?_
  rw [List.mem_range] at hk
  simp only [maxIdLength] at hk
  exact h _ (by omega) (by omega)

theorem OnNvm.congr {m m' : Mem} {e : OtEntry} (h : OnNvm m e) (heq : EqOn m m' e.nvmEntry 64) :
    OnNvm m' e := by
  refine ⟨?_, ?_⟩
  · rw [nvmIdBytes_eqOn heq, h.id]
  · rw [field_eqOn heq (by decide), h.ptr]

/-! ## The volatile part -/

/-- `e` is in the hash map. -/
def ObjectTable.Has (ot : ObjectTable) (e : OtEntry) : Prop := ∃ b, e ∈ ot.hashmap b

/-- An entry of bucket `b`. -/
structure EntryOk (ot : ObjectTable) (b : ℕ) (e : OtEntry) : Prop where
  bucket : bucketOf e.id = b
  nul : (0 : UInt8) ∉ e.id
  len : e.id.length ≤ maxIdLength
  slot : e.slot < ot.nextNvmSlot
  addr : e.nvmEntry = otSlotAddr e.slot
  ptr : e.dataPtr < 2 ^ 64

/-- The queue of freed slots: `head, …, next - 1`, none of them in use. -/
structure QueueInv (ot : ObjectTable) : Prop where
  le : ot.slotBufferHeadIdx ≤ ot.slotBufferNextIdx
  size : ot.slotBufferNextIdx ≤ slotBufferSize
  tail : ot.slotBufferTailIdx = (ot.slotBufferNextIdx : ℤ) - 1
  nFree : ot.slotBufferNFree = (ot.slotBufferNextIdx : ℤ) - ot.slotBufferHeadIdx
  slot : ∀ i, ot.slotBufferHeadIdx ≤ i → i < ot.slotBufferNextIdx →
    ot.slotBuffer i < ot.nextNvmSlot ∧ ∀ e, ot.Has e → e.slot ≠ ot.slotBuffer i
  inj : ∀ i j, ot.slotBufferHeadIdx ≤ i → i < j → j < ot.slotBufferNextIdx →
    ot.slotBuffer i ≠ ot.slotBuffer j

/-- The volatile part of the object table. -/
structure OtInv (ot : ObjectTable) : Prop where
  total : ot.totalSlotsAvailable = 1260
  next : ot.nextNvmSlot ≤ 1260
  entry : ∀ {b e}, e ∈ ot.hashmap b → EntryOk ot b e
  nodup : ∀ b, (ot.hashmap b).Nodup
  slots : ∀ {e e'}, ot.Has e → ot.Has e' → e.slot = e'.slot → e = e'
  ids : ∀ {e e'}, ot.Has e → ot.Has e' → e.id = e'.id → e.id.length < maxIdLength → e = e'
  queue : QueueInv ot

/-- The table after `ot_init` on the 20 initial chunks. -/
def emptyTable : ObjectTable := ⟨fun _ => 0, 0, 0, -1, 0, fun _ => [], 1260, 0⟩

/-- `ot_get` finds an entry of the table. -/
theorem otGet_has {ot : ObjectTable} {id : List UInt8} {e : OtEntry} (h : otGet ot id = some e) :
    e ∈ ot.hashmap (bucketOf id) ∧ equalFn id e.id = true :=
  ⟨List.mem_of_find?_eq_some h, List.find?_some (p := fun e : OtEntry => equalFn id e.id) h⟩

theorem equalFn_iff {a b : List UInt8} :
    equalFn a b = true ↔ a.take maxIdLength = b.take maxIdLength := by
  unfold equalFn
  exact beq_iff_eq

/-- A short identifier is its own key. -/
theorem equalFn_iff_of_short {a b : List UInt8} (hb : b.length < maxIdLength) :
    equalFn a b = true ↔ a = b := by
  rw [equalFn_iff, List.take_of_length_le hb.le]
  constructor
  · intro h
    have hlen := congrArg List.length h
    rw [List.length_take] at hlen
    rwa [List.take_of_length_le (by omega)] at h
  · rintro rfl
    exact List.take_of_length_le hb.le

/-- The identifier of a found entry. -/
theorem OtInv.id_of_otGet {ot : ObjectTable} (h : OtInv ot) {id : List UInt8} {e : OtEntry}
    (hget : otGet ot id = some e) : e.id = id.take maxIdLength := by
  obtain ⟨hmem, heq⟩ := otGet_has hget
  rw [equalFn_iff] at heq
  rw [heq, List.take_of_length_le (h.entry hmem).len]

/-- `ot_get` finds every entry with a short identifier. -/
theorem OtInv.otGet_eq {ot : ObjectTable} (h : OtInv ot) {e : OtEntry} (he : ot.Has e)
    (hlen : e.id.length < maxIdLength) : otGet ot e.id = some e := by
  obtain ⟨b, hb⟩ := he
  have hbucket := (h.entry hb).bucket
  cases hget : otGet ot e.id with
  | none =>
    have hnone := List.find?_eq_none.mp hget e (hbucket ▸ hb)
    exact absurd (equalFn_iff.mpr rfl) hnone
  | some e' =>
    have hid := h.id_of_otGet hget
    rw [List.take_of_length_le hlen.le] at hid
    rw [h.ids ⟨b, hb⟩ ⟨_, (otGet_has hget).1⟩ hid.symm hlen]

/-! ## `HASHMAP_INSERT` -/

theorem mem_hashmapInsert {ot : ObjectTable} {b : ℕ} {e e' : OtEntry} :
    e' ∈ (hashmapInsert ot e).hashmap b ↔ (e' = e ∧ b = bucketOf e.id) ∨ e' ∈ ot.hashmap b := by
  show e' ∈ Function.update ot.hashmap _ _ b ↔ _
  by_cases hb : b = bucketOf e.id
  · subst hb
    rw [Function.update_self, List.mem_cons]
    simp
  · rw [Function.update_of_ne hb]
    simp [hb]

/-- A new entry comes into its bucket once. -/
theorem nodup_hashmapInsert {ot : ObjectTable} {e : OtEntry} (hnew : ¬ ot.Has e)
    (h : ∀ b, (ot.hashmap b).Nodup) (b : ℕ) : ((hashmapInsert ot e).hashmap b).Nodup := by
  show (Function.update ot.hashmap _ _ b).Nodup
  by_cases hb : b = bucketOf e.id
  · subst hb
    rw [Function.update_self, List.nodup_cons]
    exact ⟨fun he => hnew ⟨_, he⟩, h _⟩
  · rw [Function.update_of_ne hb]
    exact h b

/-! ## `ot_insert` and `ot_remove` -/

section

variable {ot : ObjectTable} {w : World} {C : Nvm → Prop}

/-- A free slot leaves the queue, or the end of the used slots moves. -/
theorem otTakeSlot_spec (h : OtInv w.ot) :
    Spec otTakeSlot C
      (fun res w' => (res = none ∧ w' = w) ∨ ∃ s ot', res = some s ∧ w' = w.setOt ot' ∧ OtInv ot' ∧
        ot'.hashmap = w.ot.hashmap ∧ ot'.slotBufferNextIdx = w.ot.slotBufferNextIdx ∧
        s < ot'.nextNvmSlot ∧ (∀ e, ot'.Has e → e.slot ≠ s) ∧
        ∀ i, ot'.slotBufferHeadIdx ≤ i → i < ot'.slotBufferNextIdx → ot'.slotBuffer i ≠ s)
      (fun _ => False) w := by
  have hq := h.queue
  unfold otTakeSlot
  rw [spec_bind, spec_get, spec_ite]
  refine ⟨fun hempty => ?_, fun hne => ?_⟩
  · rw [spec_ite]
    refine ⟨fun _ => spec_pure.mpr (Or.inl ⟨rfl, rfl⟩), fun hlt => ?_⟩
    rw [spec_bind, spec_modify, spec_pure]
    have hlt' : w.ot.nextNvmSlot < 1260 := by
      have := h.total
      omega
    have hentry : ∀ {b e}, e ∈ w.ot.hashmap b →
        EntryOk { w.ot with nextNvmSlot := w.ot.nextNvmSlot + 1 } b e := by
      intro b e he
      obtain ⟨hb, hnul, hlen, hslot, haddr, hptr⟩ := h.entry he
      exact ⟨hb, hnul, hlen, Nat.lt_succ_of_lt hslot, haddr, hptr⟩
    refine Or.inr ⟨_, _, rfl, rfl, ⟨h.total, hlt', hentry, h.nodup, h.slots, h.ids,
      hq.le, hq.size, hq.tail, hq.nFree, fun i hi hi' => ?_, hq.inj⟩, rfl, rfl, Nat.lt_succ_self _,
      ?_, ?_⟩
    · exact ⟨Nat.lt_succ_of_lt (hq.slot i hi hi').1, (hq.slot i hi hi').2⟩
    · rintro e ⟨b, he⟩
      exact (h.entry he).slot.ne
    · exact fun i hi hi' => (hq.slot i hi hi').1.ne
  · rw [spec_ite]
    have hlt : w.ot.slotBufferHeadIdx < w.ot.slotBufferNextIdx := by
      have := hq.nFree
      omega
    have hsize := hq.size
    refine ⟨fun _ => ?_, fun hge => absurd (lt_of_lt_of_le hlt hsize) hge⟩
    rw [spec_bind, spec_modify, spec_pure]
    obtain ⟨hslot, hunused⟩ := hq.slot _ le_rfl hlt
    refine Or.inr ⟨_, _, rfl, rfl, ⟨h.total, h.next, ?_, h.nodup, h.slots, h.ids,
      hlt, hsize, hq.tail, ?_, fun i hi hi' => ?_, fun i j hi hij hj => ?_⟩, rfl, rfl, hslot,
      hunused, ?_⟩
    · intro b e he
      obtain ⟨hb, hnul, hlen, hslot, haddr, hptr⟩ := h.entry he
      exact ⟨hb, hnul, hlen, hslot, haddr, hptr⟩
    · have := hq.nFree
      show w.ot.slotBufferNFree - 1 =
        (w.ot.slotBufferNextIdx : ℤ) - ((w.ot.slotBufferHeadIdx + 1 : ℕ) : ℤ)
      omega
    · exact hq.slot i (Nat.le_of_succ_le hi) hi'
    · exact hq.inj i j (Nat.le_of_succ_le hi) hij hj
    · exact fun i hi hi' => (hq.inj _ i le_rfl hi hi').symm

/-- An entry with a new slot and, if its identifier is short, a new identifier. -/
theorem OtInv.insert (h : OtInv ot) {e : OtEntry} (hok : EntryOk ot (bucketOf e.id) e)
    (hslot : ∀ e', ot.Has e' → e'.slot ≠ e.slot)
    (hqueue : ∀ i, ot.slotBufferHeadIdx ≤ i → i < ot.slotBufferNextIdx → ot.slotBuffer i ≠ e.slot)
    (hid : e.id.length < maxIdLength → ∀ e', ot.Has e' → e'.id ≠ e.id) :
    OtInv (hashmapInsert ot e) ∧ ∀ e', (hashmapInsert ot e).Has e' ↔ e' = e ∨ ot.Has e' := by
  have hhas : ∀ e', (hashmapInsert ot e).Has e' ↔ e' = e ∨ ot.Has e' := by
    intro e'
    unfold ObjectTable.Has
    simp only [mem_hashmapInsert]
    constructor
    · rintro ⟨b, ⟨rfl, -⟩ | hb⟩
      · exact Or.inl rfl
      · exact Or.inr ⟨b, hb⟩
    · rintro (rfl | ⟨b, hb⟩)
      · exact ⟨_, Or.inl ⟨rfl, rfl⟩⟩
      · exact ⟨b, Or.inr hb⟩
  refine ⟨⟨h.total, h.next, fun {b e'} he => ?_, fun b => ?_, fun {x y} hx hy heq => ?_,
    fun {x y} hx hy heq hlen => ?_, ?_⟩, hhas⟩
  · rcases mem_hashmapInsert.mp he with ⟨rfl, rfl⟩ | hold
    · obtain ⟨hb, hnul, hlen, hslot, haddr, hptr⟩ := hok
      exact ⟨hb, hnul, hlen, hslot, haddr, hptr⟩
    · obtain ⟨hb, hnul, hlen, hslot, haddr, hptr⟩ := h.entry hold
      exact ⟨hb, hnul, hlen, hslot, haddr, hptr⟩
  · exact nodup_hashmapInsert (fun he => hslot e he rfl) h.nodup b
  · rcases (hhas x).mp hx with rfl | hx' <;> rcases (hhas y).mp hy with rfl | hy'
    · rfl
    · exact absurd heq.symm (hslot y hy')
    · exact absurd heq (hslot x hx')
    · exact h.slots hx' hy' heq
  · rcases (hhas x).mp hx with rfl | hx' <;> rcases (hhas y).mp hy with rfl | hy'
    · rfl
    · exact absurd heq.symm (hid hlen y hy')
    · exact absurd heq (hid (heq ▸ hlen) x hx')
    · exact h.ids hx' hy' heq hlen
  · refine ⟨h.queue.le, h.queue.size, h.queue.tail, h.queue.nFree, fun i hi hi' => ?_, h.queue.inj⟩
    refine ⟨(h.queue.slot i hi hi').1, fun e' he' => ?_⟩
    rcases (hhas e').mp he' with rfl | he'
    · exact (hqueue i hi hi').symm
    · exact (h.queue.slot i hi hi').2 e' he'

/-- `ot_insert` keeps the table in order and every entry in it. -/
theorem otInsert_spec (h : OtInv w.ot) {id : List UInt8} {ptr : ℕ} (hnul : (0 : UInt8) ∉ id)
    (hptr : ptr < 2 ^ 64) :
    Spec (otInsert id ptr) C
      (fun _ w' => ∃ ot', w' = w.setOt ot' ∧ OtInv ot' ∧ (∀ e, w.ot.Has e → ot'.Has e) ∧
        ∀ e, ot'.Has e → w.ot.Has e ∨ ∀ e', w.ot.Has e' → e'.slot ≠ e.slot)
      (fun _ => False) w := by
  unfold otInsert
  rw [spec_bind, spec_get, spec_ite]
  refine ⟨fun _ => spec_pure.mpr ⟨w.ot, rfl, h, fun _ he => he, fun _ he => Or.inl he⟩, fun hnone => ?_⟩
  have hnone' : otGet w.ot id = none := by simpa using hnone
  refine (otTakeSlot_spec h).bind ?_
  rintro res w' (⟨rfl, rfl⟩ | ⟨s, ot', rfl, rfl, hinv, hmap, -, hs, hunused, hqueue⟩)
  · exact spec_pure.mpr ⟨w'.ot, rfl, h, fun _ he => he, fun _ he => Or.inl he⟩
  · show Spec (modify _ >>= _) _ _ _ _
    rw [spec_bind, spec_modify, spec_pure]
    have hok : EntryOk ot' (bucketOf (id.take maxIdLength))
        ⟨id.take maxIdLength, s, ptr, otSlotAddr s⟩ :=
      ⟨rfl, fun hmem => hnul (List.mem_of_mem_take hmem), List.length_take_le _ _, hs, rfl, hptr⟩
    -- a short identifier was not found, so no entry has it
    have hid : (id.take maxIdLength).length < maxIdLength →
        ∀ e', ot'.Has e' → e'.id ≠ id.take maxIdLength := by
      rintro hlen e' ⟨b, hb⟩ heq
      have hshort : id.length < maxIdLength := by
        rw [List.length_take] at hlen
        omega
      rw [List.take_of_length_le hshort.le] at heq
      have hfound := h.otGet_eq (e := e') ⟨b, hmap ▸ hb⟩ (heq ▸ hshort)
      rw [heq, hnone'] at hfound
      exact absurd hfound (by simp)
    obtain ⟨hinv', hhas'⟩ := hinv.insert (e := ⟨id.take maxIdLength, s, ptr, otSlotAddr s⟩) hok
      hunused hqueue hid
    have hsame : ∀ e, ot'.Has e ↔ w.ot.Has e := by
      intro e
      unfold ObjectTable.Has
      rw [hmap]
    refine ⟨_, rfl, hinv', fun e he => (hhas' e).mpr (Or.inr ((hsame e).mpr he)), fun e he => ?_⟩
    rcases (hhas' e).mp he with rfl | hold
    · exact Or.inr fun e' he' => hunused e' ((hsame e').mpr he')
    · exact Or.inl ((hsame e).mp hold)

/-- An entry leaves the hash map and its slot joins the queue. -/
theorem OtInv.remove (h : OtInv ot) {id : List UInt8} {e : OtEntry} (hget : otGet ot id = some e)
    (hsize : ot.slotBufferNextIdx < slotBufferSize) {ot' : ObjectTable}
    (hot' : ot' = { ot with
      hashmap := Function.update ot.hashmap (bucketOf id)
        ((ot.hashmap (bucketOf id)).eraseP fun e => equalFn id e.id)
      slotBufferNextIdx := ot.slotBufferNextIdx + 1
      slotBuffer := Function.update ot.slotBuffer ot.slotBufferNextIdx e.slot
      slotBufferTailIdx := ot.slotBufferNextIdx
      slotBufferNFree := ot.slotBufferNFree + 1 }) :
    OtInv ot' ∧ ∀ e', ot'.Has e' ↔ ot.Has e' ∧ e' ≠ e := by
  obtain ⟨hmem, heq⟩ := otGet_has hget
  obtain ⟨l₁, l₂, hsplit, herase⟩ : ∃ l₁ l₂, ot.hashmap (bucketOf id) = l₁ ++ e :: l₂ ∧
      (ot.hashmap (bucketOf id)).eraseP (fun e => equalFn id e.id) = l₁ ++ l₂ := by
    obtain ⟨-, l₁, l₂, hl, hl₁⟩ := List.find?_eq_some_iff_append.mp hget
    have hfirst : ∀ x ∈ l₁, ¬ equalFn id x.id = true := fun x hx => by simpa using hl₁ x hx
    refine ⟨l₁, l₂, hl, ?_⟩
    rw [hl, List.eraseP_append_right _ hfirst,
      List.eraseP_cons_of_pos (p := fun x : OtEntry => equalFn id x.id) heq]
  have hnd := h.nodup (bucketOf id)
  rw [hsplit] at hnd
  have hmem' : ∀ b e', e' ∈ ot'.hashmap b ↔ e' ∈ ot.hashmap b ∧ e' ≠ e := by
    intro b e'
    subst hot'
    show e' ∈ Function.update ot.hashmap _ _ b ↔ _
    by_cases hb : b = bucketOf id
    · subst hb
      rw [Function.update_self, herase, hsplit]
      have hnot : e ∉ l₁ ++ l₂ := by
        have := (List.perm_middle : (l₁ ++ e :: l₂).Perm (e :: (l₁ ++ l₂))).nodup_iff.mp hnd
        exact (List.nodup_cons.mp this).1
      simp only [List.mem_append, List.mem_cons] at hnot ⊢
      constructor
      · exact fun he' => ⟨by tauto, fun hee => hnot (hee ▸ he')⟩
      · rintro ⟨he' | he' | he', hne⟩
        · exact Or.inl he'
        · exact absurd he' hne
        · exact Or.inr he'
    · rw [Function.update_of_ne hb]
      refine ⟨fun he' => ⟨he', fun hee => hb ?_⟩, And.left⟩
      rw [← (h.entry he').bucket, hee, (h.entry hmem).bucket]
  have hhas : ∀ e', ot'.Has e' ↔ ot.Has e' ∧ e' ≠ e := by
    intro e'
    unfold ObjectTable.Has
    simp only [hmem', exists_and_right]
  have hq := h.queue
  refine ⟨⟨?_, ?_, fun {b e'} he => ?_, fun b => ?_, fun {x y} hx hy => ?_, fun {x y} hx hy => ?_, ?_⟩,
    hhas⟩
  · rw [hot']
    exact h.total
  · rw [hot']
    exact h.next
  · obtain ⟨hb, hnul, hlen, hslot, haddr, hptr⟩ := h.entry ((hmem' b e').mp he).1
    exact ⟨hb, hnul, hlen, by rw [hot']; exact hslot, haddr, hptr⟩
  · subst hot'
    show (Function.update ot.hashmap _ _ b).Nodup
    by_cases hb : b = bucketOf id
    · subst hb
      rw [Function.update_self]
      exact (h.nodup _).sublist (List.eraseP_sublist ..)
    · rw [Function.update_of_ne hb]
      exact h.nodup b
  · exact h.slots ((hhas x).mp hx).1 ((hhas y).mp hy).1
  · exact h.ids ((hhas x).mp hx).1 ((hhas y).mp hy).1
  · have hslots : ∀ i, ot.slotBufferHeadIdx ≤ i → i < ot.slotBufferNextIdx →
        ot'.slotBuffer i = ot.slotBuffer i := by
      intro i _ hi
      rw [hot']
      exact Function.update_of_ne hi.ne _ _
    have hlast : ot'.slotBuffer ot.slotBufferNextIdx = e.slot := by
      rw [hot']
      exact Function.update_self ..
    have hhead : ot'.slotBufferHeadIdx = ot.slotBufferHeadIdx := by rw [hot']
    have hnext : ot'.slotBufferNextIdx = ot.slotBufferNextIdx + 1 := by rw [hot']
    have hused : ot'.nextNvmSlot = ot.nextNvmSlot := by rw [hot']
    have hle := hq.le
    have hnFree := hq.nFree
    refine ⟨by omega, by omega, by rw [hot']; push_cast; omega, by rw [hot']; push_cast; omega,
      fun i hi hi' => ?_, fun i j hi hij hj => ?_⟩
    · rw [hhead] at hi
      rw [hnext] at hi'
      by_cases hlt : i < ot.slotBufferNextIdx
      · rw [hslots i hi hlt, hused]
        refine ⟨(hq.slot i hi hlt).1, fun e' he' => (hq.slot i hi hlt).2 e' ((hhas e').mp he').1⟩
      · obtain rfl : i = ot.slotBufferNextIdx := by omega
        rw [hlast, hused]
        refine ⟨(h.entry hmem).slot, fun e' he' hee => ?_⟩
        exact ((hhas e').mp he').2 (h.slots ((hhas e').mp he').1 ⟨_, hmem⟩ hee)
    · rw [hhead] at hi
      rw [hnext] at hj
      rw [hslots i hi (by omega)]
      by_cases hlt : j < ot.slotBufferNextIdx
      · rw [hslots j (by omega) hlt]
        exact hq.inj i j hi hij hlt
      · obtain rfl : j = ot.slotBufferNextIdx := by omega
        rw [hlast]
        exact ((hq.slot i hi (by omega)).2 e ⟨_, hmem⟩).symm

/-- What `ot_remove` does: nothing if the identifier is absent, else its entry leaves the hash map
and its slot joins the queue, unless the compare-and-swap spins because the queue was filled up
once. -/
theorem otRemove_cases (h : OtInv w.ot) (id : List UInt8) :
    Spec (otRemove id) C
      (fun r w' => (r = .fail ∧ otGet w.ot id = none ∧ w' = w) ∨
        (r = .ok ∧ ∃ e ot', otGet w.ot id = some e ∧ w.ot.slotBufferNextIdx < slotBufferSize ∧
          w' = w.setOt ot' ∧ OtInv ot' ∧ (∀ e', ot'.Has e' ↔ w.ot.Has e' ∧ e' ≠ e) ∧
          ot'.slotBufferNextIdx = w.ot.slotBufferNextIdx + 1 ∧
          ot'.slotBufferHeadIdx = w.ot.slotBufferHeadIdx ∧ ot'.nextNvmSlot = w.ot.nextNvmSlot ∧
          ot'.slotBuffer = Function.update w.ot.slotBuffer w.ot.slotBufferNextIdx e.slot ∧
          ot'.hashmap = Function.update w.ot.hashmap (bucketOf id)
            ((w.ot.hashmap (bucketOf id)).eraseP fun e => equalFn id e.id)))
      (fun stop => stop = .diverges ∧ (otGet w.ot id).isSome ∧
        w.ot.slotBufferNextIdx = slotBufferSize) w := by
  have hq := h.queue
  have hsize := hq.size
  have htail := hq.tail
  unfold otRemove
  rw [spec_bind, spec_get]
  cases hget : otGet w.ot id with
  | none => exact spec_pure.mpr (Or.inl ⟨rfl, rfl, rfl⟩)
  | some e =>
    simp only
    rw [spec_bind, spec_modify, spec_ite]
    by_cases hroom : w.ot.slotBufferNextIdx < slotBufferSize
    · rw [Nat.mod_eq_of_lt hroom]
      refine ⟨fun _ => ?_, fun hne => absurd htail hne⟩
      rw [spec_bind, spec_modify, spec_pure]
      obtain ⟨hinv, hhas⟩ := h.remove hget hroom rfl
      exact Or.inr ⟨rfl, e, _, rfl, hroom, rfl, hinv, hhas, rfl, rfl, rfl, rfl, rfl⟩
    · have hfull : w.ot.slotBufferNextIdx = slotBufferSize := le_antisymm hsize (not_lt.mp hroom)
      rw [hfull, Nat.mod_self]
      refine ⟨fun heq => ?_, fun _ => spec_throw.mpr ⟨rfl, rfl, rfl⟩⟩
      rw [hfull] at htail
      simp only [slotBufferSize] at htail
      exact absurd (htail.symm.trans heq) (by decide)

/-- `ot_remove` takes the entry out, unless it spins. -/
theorem otRemove_spec (h : OtInv w.ot) {id : List UInt8} {e : OtEntry}
    (hget : otGet w.ot id = some e) :
    Spec (otRemove id) C
      (fun _ w' => ∃ ot', w' = w.setOt ot' ∧ OtInv ot' ∧ ∀ e', ot'.Has e' ↔ w.ot.Has e' ∧ e' ≠ e)
      (fun stop => stop = .diverges) w := by
  refine (otRemove_cases h id).mono (fun _ h => h) ?_ fun _ hstop => hstop.1
  rintro _ w' (⟨-, hnone, -⟩ | ⟨-, e', ot', hget', -, hw', hinv, hhas, -⟩)
  · rw [hget] at hnone
    cases hnone
  · rw [hget, Option.some.injEq] at hget'
    subst hget'
    exact ⟨ot', hw', hinv, hhas⟩

end

/-! ## The table as a whole -/

/-- Slot `s` is in state INITIALIZED. -/
def SlotUsed (m : Mem) (s : ℕ) : Prop := field m (otSlotAddr s) stateF = stateInitialized

instance (m : Mem) (s : ℕ) : Decidable (SlotUsed m s) := inferInstanceAs (Decidable (_ = _))

/-- The entry `e` has been activated: its slot is in state INITIALIZED. -/
def ActiveEntry (w : World) (e : OtEntry) : Prop := w.ot.Has e ∧ SlotUsed w.nvm.mem e.slot

/-- The volatile table and the slots on NVM between two calls. -/
structure TableInv (w : World) : Prop where
  ot : OtInv w.ot
  chain : ∀ c < 20, field w.nvm.mem (4194304 * c) nextOtChunkF = if c < 19 then 4194304 * (c + 1) else 0
  idle : ∀ s < 1260, field w.nvm.mem (otSlotAddr s) stateF ≠ stateInitializing
  initialized : ∀ s < 1260, field w.nvm.mem (otSlotAddr s) stateF = stateInitialized →
    ∃ e, w.ot.Has e ∧ e.slot = s ∧ OnNvm w.nvm.mem e

section

variable {L : Layout} {w w' : World} {live : List Region} {m : Mem} {s : ℕ}

/-- A change off the header pages leaves the slots alone. -/
theorem Untouched.slot_eqOn (h : Untouched w w') (hs : s < 1260) :
    EqOn w.nvm.mem w'.nvm.mem (otSlotAddr s) 64 := by
  have hbounds := otSlotAddr_bounds (s := s)
  exact (h.table (s / 63) (by simp only [initialArenas]; omega)).mono (by omega) (by omega)

/-- The header pages change slot by slot. -/
theorem TableInv.step (ht : TableInv w) (hot : w'.ot = w.ot)
    (hline : ∀ c < 20, EqOn w.nvm.mem w'.nvm.mem (4194304 * c) 64)
    (hslot : ∀ s < 1260, EqOn w.nvm.mem w'.nvm.mem (otSlotAddr s) 64 ∨
      (field w'.nvm.mem (otSlotAddr s) stateF ≠ stateInitializing ∧
        (field w'.nvm.mem (otSlotAddr s) stateF = stateInitialized →
          ∃ e, w.ot.Has e ∧ e.slot = s ∧ OnNvm w'.nvm.mem e))) : TableInv w' where
  ot := by rw [hot]; exact ht.ot
  chain c hc := by rw [field_eqOn (hline c hc) (by decide), ht.chain c hc]
  idle s hs := by
    rcases hslot s hs with heq | ⟨hidle, -⟩
    · rw [field_eqOn heq (by decide)]
      exact ht.idle s hs
    · exact hidle
  initialized s hs hst := by
    rw [hot]
    rcases hslot s hs with heq | ⟨-, hinit⟩
    · rw [field_eqOn heq (by decide)] at hst
      obtain ⟨e, ⟨b, hb⟩, hes, hnvm⟩ := ht.initialized s hs hst
      exact ⟨e, ⟨b, hb⟩, hes, hnvm.congr (by rw [(ht.ot.entry hb).addr, hes]; exact heq)⟩
    · exact hinit hst

theorem TableInv.of_untouched (ht : TableInv w) (h : Untouched w w') : TableInv w' :=
  ht.step h.ot (fun c hc => (h.table c hc).mono le_rfl (by omega)) fun _ hs => Or.inl (h.slot_eqOn hs)

theorem TableInv.slot_lt (ht : TableInv w) {e : OtEntry} (he : w.ot.Has e) : e.slot < 1260 := by
  obtain ⟨b, hb⟩ := he
  exact (ht.ot.entry hb).slot.trans_le ht.ot.next

theorem slotUsed_eqOn {m m' : Mem} (h : EqOn m m' (otSlotAddr s) 64) : SlotUsed m' s ↔ SlotUsed m s := by
  unfold SlotUsed
  rw [field_eqOn h (by decide)]

/-- A change off the header pages leaves the active entries alone. -/
theorem Untouched.activeEntry (h : Untouched w w') (ht : TableInv w) {e : OtEntry} :
    ActiveEntry w' e ↔ ActiveEntry w e := by
  unfold ActiveEntry
  rw [h.ot]
  exact and_congr_right fun he => slotUsed_eqOn (h.slot_eqOn (ht.slot_lt he))

/-- The volatile table changes and keeps the entries of initialized slots. -/
theorem TableInv.setOt (ht : TableInv w) {ot' : ObjectTable} (hot : OtInv ot')
    (hkeep : ∀ e, w.ot.Has e → field w.nvm.mem (otSlotAddr e.slot) stateF = stateInitialized →
      ot'.Has e) : TableInv (w.setOt ot') where
  ot := hot
  chain := ht.chain
  idle := ht.idle
  initialized s hs hst := by
    obtain ⟨e, he, hslot, hnvm⟩ := ht.initialized s hs hst
    exact ⟨e, hkeep e he (hslot ▸ hst), hslot, hnvm⟩

/-- The heap does not see the volatile table. -/
theorem ProcInv.setOt (h : ProcInv L w live) (ot : ObjectTable) : ProcInv L (w.setOt ot) live :=
  ⟨⟨h.nvm, ⟨h.pool.pages, h.pool.chunks⟩, ⟨h.runs.run, h.runs.tile⟩, h.live⟩, h.owned, h.bins, h.version⟩

/-- The slots lie apart from the headers. -/
theorem HeapInv.eqOn_slot (h : HeapInv L w live) (hs : s < 1260)
    (heq : EqOff w.nvm.mem m (otSlotAddr s) 64) {q : ℕ} {u : Tile} (hq : L q = some u) :
    EqOn w.nvm.mem m (4096 * q) 64 := by
  have hbounds := otSlotAddr_bounds (s := s)
  have harena := h.nvm.base (s / 63) (by simp only [initialArenas]; omega)
  by_cases hqc : q = 1024 * (s / 63)
  · exact heq.eqOn (Or.inl (by omega))
  · have hd := h.nvm.ok.disjoint hq harena hqc
    have hpos := h.nvm.ok.len_pos hq
    rw [Tile.len_arena] at hd
    exact heq.eqOn (by omega)

/-- The heap sees of a slot only where it points while it is in state INITIALIZING. -/
theorem ProcInv.setSlot (h : ProcInv L w live) (hs : s < 1260)
    (heq : EqOff w.nvm.mem m (otSlotAddr s) 64)
    (hlog : field m (otSlotAddr s) stateF = stateInitializing →
      Logged L (field m (otSlotAddr s) otPtrF)) :
    ProcInv L (w.setMem m) live := by
  have hbounds := otSlotAddr_bounds (s := s)
  have harena := h.nvm.base (s / 63) (by simp only [initialArenas]; omega)
  refine ⟨h.toHeapInv.setBody (fun {q u} hq => h.toHeapInv.eqOn_slot hs heq hq) (fun x hx => ?_)
    fun s' hs' hst => ?_, h.owned, h.bins, h.version⟩
  · have hlt := h.nvm.lt_nextChunk harena
    rw [heq x (Or.inr (by omega))]
    exact h.nvm.zero x hx
  · by_cases hss : s' = s
    · subst hss
      exact hlog hst
    · have hline : EqOn w.nvm.mem m (otSlotAddr s') 64 := heq.eqOn (otSlotAddr_disjoint hss)
      rw [field_eqOn hline (by decide)] at hst ⊢
      exact h.nvm.slots s' hs' hst

end

/-! ## `ot_init` -/

section

variable {w : World} {C : Nvm → Prop} (hchain : ∀ c < 20,
  field w.nvm.mem (4194304 * c) nextOtChunkF = if c < 19 then 4194304 * (c + 1) else 0)

include hchain

/-- The loop of `ot_init` from chunk `c` of the table on. -/
theorem otInitLoop_spec (ot : ObjectTable) {fuel c n : ℕ} (hc : c < 20) :
    Spec (otInitLoop fuel (4194304 * c)) C
      (fun _ w' => w' = w.setOt { ot with totalSlotsAvailable := n + 63 * (20 - c) })
      (fun e => e = .diverges ∧ fuel < 20 - c) (w.setOt { ot with totalSlotsAvailable := n }) := by
  induction fuel generalizing c n with
  | zero =>
    rw [otInitLoop, spec_throw]
    exact ⟨rfl, by omega⟩
  | succ fuel ih =>
    rw [otInitLoop, spec_bind, spec_modify]
    refine spec_loadField_then ?_
    change Spec (if field w.nvm.mem (4194304 * c) nextOtChunkF = 0 then _ else
      otInitLoop fuel (field w.nvm.mem (4194304 * c) nextOtChunkF)) _ _ _
      (w.setOt { ot with totalSlotsAvailable := n + 63 })
    rw [hchain c hc, spec_ite]
    by_cases hlast : c < 19
    · rw [if_pos hlast]
      refine ⟨fun h => by omega, fun _ => ?_⟩
      refine (ih (c := c + 1) (n := n + 63) (by omega)).mono (fun _ h => h) ?_ ?_
      · rintro _ _ rfl
        rw [show n + 63 + 63 * (20 - (c + 1)) = n + 63 * (20 - c) by omega]
      · rintro e ⟨rfl, hlt⟩
        exact ⟨rfl, by omega⟩
    · rw [if_neg hlast]
      refine ⟨fun _ => ?_, fun h => absurd rfl h⟩
      obtain rfl : c = 19 := by omega
      exact spec_pure.mpr rfl

/-- `ot_init` counts the slots. -/
theorem otInit_spec {fuel : ℕ} :
    Spec (otInit fuel) C
      (fun _ w' => w' = w.setOt { w.ot with
        hashmap := fun _ => []
        totalSlotsAvailable := w.ot.totalSlotsAvailable + 1260 })
      (fun e => e = .diverges ∧ fuel < 20) w := by
  unfold otInit
  rw [spec_bind, spec_modify]
  exact otInitLoop_spec hchain { w.ot with hashmap := fun _ => [] } (c := 0) (by omega)

end

end NvmMalloc
