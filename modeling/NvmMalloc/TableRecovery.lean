import NvmMalloc.IdMap

/-!
# Recovery of the object table

Reference: `src/object_table.c` (`ot_init`, `ot_recover`).

`ot_recover` walks the slots on NVM in order.  What it has built after the first `n` slots is a function
of the image: the slots in state INITIALIZED give the entries, the unused slots between them the queue of
free slots.  A slot in state INITIALIZING is cleared: the state byte of a header has the usage in it, so
it is none of the states that `ot_recover` compares it with.
-/

namespace NvmMalloc

open Memory CrashM

/-! ## What the slots hold -/

/-- Slot `s` is in state INITIALIZING. -/
def SlotPending (m : Mem) (s : ℕ) : Prop := field m (otSlotAddr s) stateF = stateInitializing

instance (m : Mem) (s : ℕ) : Decidable (SlotPending m s) := inferInstanceAs (Decidable (_ = _))

/-- The used slots among the first `n`, the last one first. -/
def usedSlots (m : Mem) : ℕ → List ℕ
  | 0 => []
  | n + 1 => if SlotUsed m n then n :: usedSlots m n else usedSlots m n

/-- `last_used_slot` after the first `n` slots. -/
def lastUsedSlot (m : Mem) (n : ℕ) : ℕ := (usedSlots m n).headD 0

/-- The unused slots below the last used one, slot 0 left out. -/
def gapSlots (m : Mem) (n : ℕ) : List ℕ :=
  (List.range (lastUsedSlot m n)).filter fun s => 0 < s ∧ ¬ SlotUsed m s

/-- The entry that `ot_recover` makes of slot `s`. -/
def recoveredEntry (junk : ℕ → List UInt8) (m : Mem) (s : ℕ) : OtEntry :=
  ⟨recoveredKey (nvmIdBytes m (otSlotAddr s)) (junk s), s, field m (otSlotAddr s) otPtrF, otSlotAddr s⟩

/-- The image after the pending slots among the first `n` have been cleared. -/
def clearSlots (m : Mem) (n : ℕ) : Mem := fun a =>
  if ∃ s < n, SlotPending m s ∧ otSlotAddr s ≤ a ∧ a < otSlotAddr s + 64 then 0 else m a

section

variable {m : Mem} {n s : ℕ}

theorem mem_usedSlots : s ∈ usedSlots m n ↔ s < n ∧ SlotUsed m s := by
  induction n with
  | zero => simp [usedSlots]
  | succ n ih =>
    rw [usedSlots]
    split
    · rename_i hn
      rw [List.mem_cons, ih]
      constructor
      · rintro (rfl | ⟨hlt, hs⟩)
        · exact ⟨Nat.lt_succ_self _, hn⟩
        · exact ⟨Nat.lt_succ_of_lt hlt, hs⟩
      · rintro ⟨hlt, hs⟩
        rcases Nat.lt_succ_iff_lt_or_eq.mp hlt with hlt | rfl
        · exact Or.inr ⟨hlt, hs⟩
        · exact Or.inl rfl
    · rename_i hn
      rw [ih]
      constructor
      · rintro ⟨hlt, hs⟩
        exact ⟨Nat.lt_succ_of_lt hlt, hs⟩
      · rintro ⟨hlt, hs⟩
        rcases Nat.lt_succ_iff_lt_or_eq.mp hlt with hlt | rfl
        · exact ⟨hlt, hs⟩
        · exact absurd hs hn

theorem lastUsedSlot_of_used (h : SlotUsed m n) : lastUsedSlot m (n + 1) = n := by
  unfold lastUsedSlot
  rw [usedSlots, if_pos h]
  rfl

theorem lastUsedSlot_of_unused (h : ¬ SlotUsed m n) : lastUsedSlot m (n + 1) = lastUsedSlot m n := by
  unfold lastUsedSlot
  rw [usedSlots, if_neg h]

/-- Every used slot is at most the last used one. -/
theorem le_lastUsedSlot (hs : s < n) (hused : SlotUsed m s) : s ≤ lastUsedSlot m n := by
  induction n with
  | zero => exact absurd hs (Nat.not_lt_zero s)
  | succ n ih =>
    by_cases hn : SlotUsed m n
    · rw [lastUsedSlot_of_used hn]
      exact Nat.lt_succ_iff.mp hs
    · rw [lastUsedSlot_of_unused hn]
      refine ih (lt_of_le_of_ne (Nat.lt_succ_iff.mp hs) ?_)
      rintro rfl
      exact hn hused

/-- The last used slot is used, or it is 0. -/
theorem lastUsedSlot_used (m : Mem) (n : ℕ) :
    lastUsedSlot m n = 0 ∨ lastUsedSlot m n < n ∧ SlotUsed m (lastUsedSlot m n) := by
  induction n with
  | zero => exact Or.inl rfl
  | succ n ih =>
    by_cases hn : SlotUsed m n
    · rw [lastUsedSlot_of_used hn]
      exact Or.inr ⟨Nat.lt_succ_self n, hn⟩
    · rw [lastUsedSlot_of_unused hn]
      exact ih.imp_right fun h => ⟨Nat.lt_succ_of_lt h.1, h.2⟩

theorem gapSlots_of_unused (h : ¬ SlotUsed m n) : gapSlots m (n + 1) = gapSlots m n := by
  unfold gapSlots
  rw [lastUsedSlot_of_unused h]

/-- A used slot ends a gap: the slots since the last used one join the queue. -/
theorem gapSlots_of_used (h : SlotUsed m n) : gapSlots m (n + 1) =
    gapSlots m n ++ List.range' (lastUsedSlot m n + 1) (n - (lastUsedSlot m n + 1)) := by
  unfold gapSlots
  rw [lastUsedSlot_of_used h]
  rcases Nat.eq_zero_or_pos n with rfl | hpos
  · rfl
  · have hlt : lastUsedSlot m n < n := by
      rcases lastUsedSlot_used m n with h0 | ⟨hlt, -⟩ <;> omega
    generalize hlast : lastUsedSlot m n = last at hlt
    have hsplit : List.range n = List.range (last + 1) ++ List.range' (last + 1) (n - (last + 1)) := by
      have happ := List.range'_append_1 (s := 0) (m := last + 1) (n := n - (last + 1))
      rw [Nat.zero_add, Nat.add_sub_of_le hlt] at happ
      rw [List.range_eq_range', List.range_eq_range', happ]
    rw [hsplit, List.range_succ, List.filter_append, List.filter_append]
    -- the last used slot is no gap, and none of the slots behind it is used
    have hmid : [last].filter (fun s => decide (0 < s ∧ ¬ SlotUsed m s)) = [] := by
      refine List.filter_eq_nil_iff.mpr fun s hs => ?_
      rw [List.mem_singleton.mp hs, decide_eq_true_iff]
      rintro ⟨hpos, hunused⟩
      rcases lastUsedSlot_used m n with h0 | ⟨-, hused⟩
      · omega
      · rw [hlast] at hused
        exact hunused hused
    have hend : (List.range' (last + 1) (n - (last + 1))).filter
        (fun s => decide (0 < s ∧ ¬ SlotUsed m s)) = List.range' (last + 1) (n - (last + 1)) := by
      refine List.filter_eq_self.mpr fun s hs => ?_
      rw [List.mem_range'_1] at hs
      rw [decide_eq_true_iff]
      refine ⟨by omega, fun hused => ?_⟩
      have hle := le_lastUsedSlot (n := n) (by omega) hused
      omega
    rw [hmid, hend, List.append_nil]

theorem mem_gapSlots : s ∈ gapSlots m n ↔ 0 < s ∧ s < lastUsedSlot m n ∧ ¬ SlotUsed m s := by
  unfold gapSlots
  rw [List.mem_filter, List.mem_range, decide_eq_true_iff]
  tauto

theorem nodup_gapSlots (m : Mem) (n : ℕ) : (gapSlots m n).Nodup := List.nodup_range.filter _

/-- The gaps found so far stay gaps. -/
theorem gapSlots_length_mono {n' : ℕ} (h : n + 1 ≤ n') :
    (gapSlots m (n + 1)).length ≤ (gapSlots m n').length := by
  induction n', h using Nat.le_induction with
  | base => exact le_rfl
  | succ k _ ih =>
    refine ih.trans ?_
    by_cases hk : SlotUsed m k
    · rw [gapSlots_of_used hk, List.length_append]
      exact Nat.le_add_right _ _
    · rw [gapSlots_of_unused hk]

/-- Clearing one more slot. -/
theorem clearSlots_of_pending (h : SlotPending m n) :
    fill (clearSlots m n) (otSlotAddr n) 64 = clearSlots m (n + 1) := by
  funext a
  by_cases ha : otSlotAddr n ≤ a ∧ a < otSlotAddr n + 64
  · rw [fill_apply ha.1 ha.2]
    exact (if_pos ⟨n, Nat.lt_succ_self n, h, ha⟩).symm
  · rw [fill_eqOff _ _ _ a (by omega)]
    unfold clearSlots
    refine if_congr ⟨?_, ?_⟩ rfl rfl
    · rintro ⟨s, hs, hrest⟩
      exact ⟨s, Nat.lt_succ_of_lt hs, hrest⟩
    · rintro ⟨s, hs, hrest⟩
      refine ⟨s, lt_of_le_of_ne (Nat.lt_succ_iff.mp hs) ?_, hrest⟩
      rintro rfl
      exact ha hrest.2

theorem clearSlots_of_not_pending (h : ¬ SlotPending m n) : clearSlots m n = clearSlots m (n + 1) := by
  funext a
  unfold clearSlots
  refine if_congr ⟨?_, ?_⟩ rfl rfl
  · rintro ⟨s, hs, hrest⟩
    exact ⟨s, Nat.lt_succ_of_lt hs, hrest⟩
  · rintro ⟨s, hs, hrest⟩
    refine ⟨s, lt_of_le_of_ne (Nat.lt_succ_iff.mp hs) ?_, hrest⟩
    rintro rfl
    exact h hrest.1

theorem clearSlots_zero (m : Mem) : clearSlots m 0 = m := by
  funext a
  refine if_neg ?_
  rintro ⟨s, hs, -⟩
  exact Nat.not_lt_zero s hs

/-- A byte outside the slots stays. -/
theorem clearSlots_apply {a : ℕ} (h : ∀ s < n, a < otSlotAddr s ∨ otSlotAddr s + 64 ≤ a) :
    clearSlots m n a = m a := by
  refine if_neg ?_
  rintro ⟨s, hs, -, hlo, hhi⟩
  rcases h s hs with hlt | hge <;> omega

/-- A slot that is not cleared stays. -/
theorem clearSlots_slot (h : s < n → ¬ SlotPending m s) : EqOn m (clearSlots m n) (otSlotAddr s) 64 := by
  intro a hlo hhi
  refine if_neg ?_
  rintro ⟨s', hs', hpend, hlo', hhi'⟩
  by_cases heq : s' = s
  · subst heq
    exact h hs' hpend
  · rcases otSlotAddr_disjoint heq with hd | hd <;> omega

end

/-! ## The walk over the slots -/

/-- The queue holds the slots of `l`, from its first place on. -/
structure QueueHolds (ot : ObjectTable) (l : List ℕ) : Prop where
  head : ot.slotBufferHeadIdx = 0
  next : ot.slotBufferNextIdx = l.length
  room : l.length ≤ slotBufferSize
  tail : ot.slotBufferTailIdx = (l.length : ℤ) - 1
  nFree : ot.slotBufferNFree = l.length
  slot : ∀ i s, l[i]? = some s → ot.slotBuffer i = s

/-- The state of `ot_recover` after the first `n` slots, started in `w`. -/
structure TableRead (junk : ℕ → List UInt8) (w : World) (n : ℕ) (w' : World) : Prop where
  world : w' = (w.setMem (clearSlots w.nvm.mem n)).setOt w'.ot
  total : w'.ot.totalSlotsAvailable = w.ot.totalSlotsAvailable
  queue : QueueHolds w'.ot (gapSlots w.nvm.mem n)
  hashmap : ∀ b, w'.ot.hashmap b =
    ((usedSlots w.nvm.mem n).map (recoveredEntry junk w.nvm.mem)).filter fun e => bucketOf e.id = b

/-- `ot_recover` finds no region that is on NVM for the pointer of slot `s`. -/
def SlotDropped (m : Mem) (s : ℕ) : Prop :=
  ∀ w, (∀ a, (∀ s' < 1260, a < otSlotAddr s' ∨ otSlotAddr s' + 64 ≤ a) → w.nvm.mem a = m a) →
    Spec (otKeep (field m (otSlotAddr s) otPtrF)) (fun _ => True) (fun keep w' => keep = false ∧ w' = w)
      (fun _ => False) w

/-- One more slot at the end of the queue. -/
theorem QueueHolds.push {ot : ObjectTable} {l : List ℕ} (h : QueueHolds ot l)
    (hroom : l.length < slotBufferSize) (s : ℕ) : QueueHolds { ot with
      slotBuffer := Function.update ot.slotBuffer ot.slotBufferNextIdx s
      slotBufferNextIdx := ot.slotBufferNextIdx + 1
      slotBufferTailIdx := ot.slotBufferTailIdx + 1
      slotBufferNFree := ot.slotBufferNFree + 1 } (l ++ [s]) := by
  have hlen : (l ++ [s]).length = l.length + 1 := List.length_append
  refine ⟨h.head, ?_, by omega, ?_, ?_, fun i t ht => ?_⟩
  · rw [hlen, ← h.next]
  · rw [hlen]
    show ot.slotBufferTailIdx + 1 = _
    rw [h.tail]
    push_cast
    ring
  · rw [hlen]
    show ot.slotBufferNFree + 1 = _
    rw [h.nFree]
    push_cast
    rfl
  · show Function.update ot.slotBuffer ot.slotBufferNextIdx s i = t
    rw [h.next]
    by_cases hi : i = l.length
    · subst hi
      rw [List.getElem?_append_right le_rfl, Nat.sub_self] at ht
      rw [Function.update_self]
      exact Option.some.inj ht
    · have hlt : i < l.length := by
        have hle := (List.getElem?_eq_some_iff.mp ht).1
        omega
      rw [List.getElem?_append_left hlt] at ht
      rw [Function.update_of_ne hi]
      exact h.slot i t ht

section

variable {junk : ℕ → List UInt8} {w w' : World} {n : ℕ}

/-- The inner loop puts the slots of a gap into the queue. -/
theorem otCollectGaps_spec {l : List ℕ} {k : ℕ} (h : QueueHolds w.ot l) :
    Spec (otCollectGaps n k) (fun _ => True)
      (fun _ w' => ∃ ot', w' = w.setOt ot' ∧ QueueHolds ot' (l ++ List.range' n k) ∧
        ot'.hashmap = w.ot.hashmap ∧ ot'.totalSlotsAvailable = w.ot.totalSlotsAvailable)
      (fun e => e = .fault ∧ slotBufferSize < (l ++ List.range' n k).length) w := by
  induction k generalizing n l w with
  | zero =>
    rw [otCollectGaps, spec_pure]
    refine ⟨w.ot, rfl, ?_, rfl, rfl⟩
    rw [List.range'_zero, List.append_nil]
    exact h
  | succ k ih =>
    rw [otCollectGaps, spec_bind, spec_get, spec_ite]
    have hcons : l ++ List.range' n (k + 1) = (l ++ [n]) ++ List.range' (n + 1) k := by
      rw [List.range'_succ, List.append_assoc]
      rfl
    refine ⟨fun hroom => ?_, fun hfull => ?_⟩
    · rw [spec_bind, spec_modify, hcons]
      rw [h.next] at hroom
      refine (ih (h.push hroom n)).mono (fun _ h => h) ?_ fun _ h => h
      rintro _ _ ⟨ot', rfl, hq, hmap, htotal⟩
      exact ⟨ot', rfl, hq, hmap, htotal⟩
    · rw [spec_throw]
      refine ⟨rfl, ?_⟩
      rw [h.next] at hfull
      rw [List.length_append, List.length_range']
      omega

/-- The decision about one slot: a used one is kept, a pending one is cleared. -/
theorem otRecoverEntry_spec (h : TableRead junk w n w') (hn : n < 1260)
    (hdrop : SlotPending w.nvm.mem n →
      SlotDropped w.nvm.mem n) :
    Spec (otRecoverEntry (otSlotAddr n)) (fun _ => True)
      (fun keep w'' => (keep = true ↔ SlotUsed w.nvm.mem n) ∧
        w'' = w'.setMem (clearSlots w.nvm.mem (n + 1))) (fun _ => False) w' := by
  have hmem : w'.nvm.mem = clearSlots w.nvm.mem n := by
    rw [h.world]
    rfl
  have hself : EqOn w.nvm.mem w'.nvm.mem (otSlotAddr n) 64 := by
    rw [hmem]
    exact clearSlots_slot fun hlt => absurd hlt (lt_irrefl n)
  have hstay : ¬ SlotPending w.nvm.mem n → w' = w'.setMem (clearSlots w.nvm.mem (n + 1)) := by
    intro hpend
    rw [← clearSlots_of_not_pending hpend, ← hmem]
    rfl
  unfold otRecoverEntry
  rw [spec_bind, spec_loadField, field_eqOn hself (by decide), spec_ite]
  refine ⟨fun hused => ?_, fun hused => ?_⟩
  · rw [spec_pure]
    refine ⟨iff_of_true rfl hused, hstay fun hpend => ?_⟩
    exact absurd (hused.symm.trans hpend) (by decide)
  · rw [spec_ite]
    refine ⟨fun hpend => ?_, fun hpend => spec_pure.mpr ⟨iff_of_false (by decide) hused, hstay hpend⟩⟩
    rw [spec_bind, spec_loadField, field_eqOn hself (by decide)]
    refine Spec.bind (hdrop hpend w' fun a ha => ?_) ?_
    · rw [hmem]
      exact clearSlots_apply fun s hs => ha s (hs.trans hn)
    · rintro _ _ ⟨rfl, rfl⟩
      show Spec (memset0 _ _ >>= _) _ _ _ _
      rw [spec_bind, spec_memset0]
      refine ⟨fun _ _ => trivial, ?_⟩
      rw [spec_bind, spec_persist, spec_pure]
      refine ⟨iff_of_false (by decide) hused, ?_⟩
      rw [hmem, ← clearSlots_of_pending hpend]
      rfl

/-- One slot: its entry joins the hash map, and the gap before it the queue. -/
theorem otRecoverSlot_spec (h : TableRead junk w n w') (hn : n < 1260) (hdrop : SlotPending w.nvm.mem n →
      SlotDropped w.nvm.mem n) :
    Spec (otRecoverSlot junk (otSlotAddr n) n (lastUsedSlot w.nvm.mem n)) (fun _ => True)
      (fun last w'' => last = lastUsedSlot w.nvm.mem (n + 1) ∧ TableRead junk w (n + 1) w'')
      (fun e => e = .fault ∧ slotBufferSize < (gapSlots w.nvm.mem (n + 1)).length) w' := by
  unfold otRecoverSlot
  refine Spec.bind ((otRecoverEntry_spec h hn hdrop).mono (fun _ h => h) (fun _ _ h => h)
    fun _ h => h.elim) ?_
  rintro keep w₁ ⟨hkeep, rfl⟩
  have hworld := h.world
  by_cases hused : SlotUsed w.nvm.mem n
  · rw [if_pos (hkeep.mpr hused), spec_bind, spec_get, gapSlots_of_used hused,
      lastUsedSlot_of_used hused]
    refine Spec.bind (otCollectGaps_spec (w := w'.setMem (clearSlots w.nvm.mem (n + 1))) h.queue) ?_
    rintro _ _ ⟨ot', rfl, hq, hmap, htotal⟩
    rw [spec_bind, spec_modify, spec_pure]
    refine ⟨rfl, ?_, htotal.trans h.total, ?_, fun b => ?_⟩
    · rw [hworld]
      rfl
    · rw [gapSlots_of_used hused]
      exact ⟨hq.head, hq.next, hq.room, hq.tail, hq.nFree, hq.slot⟩
    · have hslot : EqOn w.nvm.mem (clearSlots w.nvm.mem (n + 1)) (otSlotAddr n) 64 := by
        refine clearSlots_slot fun _ hpend => ?_
        exact absurd (hused.symm.trans hpend) (by decide)
      have hentry : (⟨recoveredKey (nvmIdBytes (clearSlots w.nvm.mem (n + 1)) (otSlotAddr n))
          (junk n), n,
          field (clearSlots w.nvm.mem (n + 1)) (otSlotAddr n) otPtrF, otSlotAddr n⟩ : OtEntry) =
          recoveredEntry junk w.nvm.mem n := by
        unfold recoveredEntry
        rw [field_eqOn hslot (by decide), nvmIdBytes_eqOn hslot]
      rw [usedSlots, if_pos hused, List.map_cons, List.filter_cons, ← h.hashmap b]
      show (hashmapInsert ot' ⟨recoveredKey (nvmIdBytes (clearSlots w.nvm.mem (n + 1)) (otSlotAddr n))
        (junk n), n, field (clearSlots w.nvm.mem (n + 1)) (otSlotAddr n) otPtrF,
        otSlotAddr n⟩).hashmap b = _
      rw [hentry]
      show Function.update ot'.hashmap _ _ b = _
      rw [hmap]
      by_cases hb : b = bucketOf (recoveredEntry junk w.nvm.mem n).id
      · subst hb
        rw [Function.update_self, if_pos (decide_eq_true rfl)]
        rfl
      · rw [Function.update_of_ne hb, if_neg (by rw [decide_eq_true_iff]; exact fun he => hb he.symm)]
        rfl
  · rw [if_neg (fun hk => hused (hkeep.mp hk)), spec_pure, lastUsedSlot_of_unused hused]
    refine ⟨rfl, ?_, h.total, ?_, fun b => ?_⟩
    · rw [hworld]
      rfl
    · rw [gapSlots_of_unused hused]
      exact h.queue
    · rw [usedSlots, if_neg hused]
      exact h.hashmap b

/-- The slots of one chunk. -/
theorem otRecoverChunk_spec {c i k : ℕ} (hc : c < 20) (hik : i + k = 63)
    (h : TableRead junk w (63 * c + i) w')
    (hdrop : ∀ s < 1260, SlotPending w.nvm.mem s → SlotDropped w.nvm.mem s) :
    Spec (otRecoverChunk junk (4194304 * c) i k (63 * c + i) (lastUsedSlot w.nvm.mem (63 * c + i)))
      (fun _ => True)
      (fun last w'' => last = lastUsedSlot w.nvm.mem (63 * (c + 1)) ∧
        TableRead junk w (63 * (c + 1)) w'')
      (fun e => e = .fault ∧ slotBufferSize < (gapSlots w.nvm.mem 1260).length) w' := by
  induction k generalizing i w' with
  | zero =>
    rw [otRecoverChunk, spec_pure]
    obtain rfl : i = 63 := by omega
    exact ⟨rfl, h⟩
  | succ k ih =>
    have haddr : 4194304 * c + headerSize + i * headerSize = otSlotAddr (63 * c + i) := by
      simp only [otSlotAddr, headerSize, chunkSize]
      omega
    have hn : 63 * c + i < 1260 := by omega
    rw [otRecoverChunk, haddr]
    refine Spec.bind ((otRecoverSlot_spec h hn (hdrop _ hn)).mono (fun _ h => h) (fun _ _ h => h) ?_) ?_
    · rintro e ⟨rfl, hlong⟩
      exact ⟨rfl, hlong.trans_le (gapSlots_length_mono hn)⟩
    · rintro _ w'' ⟨rfl, h'⟩
      exact ih (i := i + 1) (by omega) h'

/-- The chunk loop from chunk `c` of the table on. -/
theorem otRecoverLoop_spec {fuel c : ℕ} (hchain : ∀ c < 20, field w.nvm.mem (4194304 * c) nextOtChunkF =
      if c < 19 then 4194304 * (c + 1) else 0) (hc : c < 20) (h : TableRead junk w (63 * c) w')
    (hdrop : ∀ s < 1260, SlotPending w.nvm.mem s → SlotDropped w.nvm.mem s) :
    Spec (otRecoverLoop junk fuel (4194304 * c) (63 * c) (lastUsedSlot w.nvm.mem (63 * c)))
      (fun _ => True)
      (fun last w'' => last = lastUsedSlot w.nvm.mem 1260 ∧ TableRead junk w 1260 w'')
      (fun e => e = .fault ∧ slotBufferSize < (gapSlots w.nvm.mem 1260).length ∨
        e = .diverges ∧ fuel < 20 - c) w' := by
  induction fuel generalizing c w' with
  | zero =>
    rw [otRecoverLoop, spec_throw]
    exact Or.inr ⟨rfl, by omega⟩
  | succ fuel ih =>
    rw [otRecoverLoop]
    refine Spec.bind ((otRecoverChunk_spec hc (i := 0) (k := 63) rfl h hdrop).mono (fun _ h => h)
      (fun _ _ h => h) fun _ h => Or.inl h) ?_
    rintro _ w'' ⟨rfl, h'⟩
    have hmem : w''.nvm.mem = clearSlots w.nvm.mem (63 * (c + 1)) := by
      rw [h'.world]
      rfl
    have hline : EqOn w.nvm.mem w''.nvm.mem (4194304 * c) 64 := by
      intro a hlo hhi
      rw [hmem]
      refine clearSlots_apply fun s _ => ?_
      have hbounds := otSlotAddr_bounds (s := s)
      omega
    rw [spec_bind, spec_loadField, field_eqOn hline (by decide), hchain c hc, spec_ite]
    by_cases hlast : c < 19
    · rw [if_pos hlast]
      refine ⟨fun _ => ?_, fun h0 => absurd h0 (by omega)⟩
      refine (ih (c := c + 1) (by omega) h').mono (fun _ h => h) (fun _ _ h => h) ?_
      rintro e (hfault | ⟨rfl, hlt⟩)
      · exact Or.inl hfault
      · exact Or.inr ⟨rfl, by omega⟩
    · rw [if_neg hlast]
      refine ⟨fun h0 => absurd rfl h0, fun _ => ?_⟩
      obtain rfl : c = 19 := by omega
      exact spec_pure.mpr ⟨rfl, h'⟩

/-- **`ot_recover`**: the table it builds, or the slot buffer overflows. -/
theorem otRecover_spec {fuel : ℕ} (hchain : ∀ c < 20, field w.nvm.mem (4194304 * c) nextOtChunkF =
      if c < 19 then 4194304 * (c + 1) else 0) (hot : w.ot = emptyTable)
    (hdrop : ∀ s < 1260, SlotPending w.nvm.mem s → SlotDropped w.nvm.mem s) :
    Spec (otRecover junk fuel) (fun _ => True)
      (fun _ w' => TableRead junk w 1260 w' ∧ w'.ot.nextNvmSlot = lastUsedSlot w.nvm.mem 1260 + 1)
      (fun e => e = .fault ∧ slotBufferSize < (gapSlots w.nvm.mem 1260).length ∨
        e = .diverges ∧ fuel < 20) w := by
  have h₀ : TableRead junk w 0 w := by
    refine ⟨?_, rfl, ?_, fun b => ?_⟩
    · rw [clearSlots_zero]
      rfl
    · rw [hot]
      exact ⟨rfl, rfl, Nat.zero_le _, rfl, rfl, fun i s hs => absurd hs (by
        simp [gapSlots, lastUsedSlot, usedSlots])⟩
    · rw [hot]
      rfl
  have hloop : Spec (otRecoverLoop junk fuel (4194304 * 0) (63 * 0) (lastUsedSlot w.nvm.mem (63 * 0)))
      _ _ _ w := otRecoverLoop_spec hchain (by omega) h₀ hdrop
  rw [Nat.mul_zero] at hloop
  unfold otRecover
  refine Spec.bind hloop ?_
  rintro last w' ⟨hlast, h⟩
  rw [spec_modify, ← hlast]
  refine ⟨⟨?_, h.total, ⟨h.queue.head, h.queue.next, h.queue.room, h.queue.tail, h.queue.nFree,
    h.queue.slot⟩, h.hashmap⟩, rfl⟩
  have hworld := h.world
  generalize clearSlots w.nvm.mem 1260 = m' at hworld ⊢
  rw [hworld]
  rfl

/-- `ot_init` and `ot_recover` in a new process. -/
theorem otInit_otRecover_spec {fuel : ℕ} (hchain : ∀ c < 20,
      field w.nvm.mem (4194304 * c) nextOtChunkF = if c < 19 then 4194304 * (c + 1) else 0)
    (hot : w.ot = { emptyTable with totalSlotsAvailable := 0 })
    (hdrop : ∀ s < 1260, SlotPending w.nvm.mem s → SlotDropped w.nvm.mem s) :
    Spec (otInit fuel >>= fun _ => otRecover junk fuel) (fun _ => True)
      (fun _ w' => TableRead junk (w.setOt emptyTable) 1260 w' ∧
        w'.ot.nextNvmSlot = lastUsedSlot w.nvm.mem 1260 + 1)
      (fun e => e = .fault ∧ slotBufferSize < (gapSlots w.nvm.mem 1260).length ∨
        e = .diverges ∧ fuel < 20) w := by
  rw [spec_bind]
  refine (otInit_spec hchain).mono (fun _ h => h) ?_ fun _ h => Or.inr h
  rintro _ w₁ hw₁
  have hw : w₁ = w.setOt emptyTable := by
    rw [hw₁, hot]
    rfl
  rw [hw]
  exact otRecover_spec (w := w.setOt emptyTable) hchain rfl hdrop

end

/-! ## The slots of a recovered table -/

/-- Slot `s` belongs to an entry of the hash map. -/
def SlotLive (ot : ObjectTable) (s : ℕ) : Prop := ∃ e, ot.Has e ∧ e.slot = s

/-- Slot `s` waits in the queue of freed slots. -/
def SlotQueued (ot : ObjectTable) (s : ℕ) : Prop :=
  ∃ i, ot.slotBufferHeadIdx ≤ i ∧ i < ot.slotBufferNextIdx ∧ ot.slotBuffer i = s

/-- Slot `s` has not been handed out yet. -/
def SlotFresh (ot : ObjectTable) (s : ℕ) : Prop := ot.nextNvmSlot ≤ s

/-- Every slot is in exactly one place, and the indices of the queue describe its pending part. -/
structure SlotInvariant (ot : ObjectTable) : Prop where
  place : ∀ s < ot.totalSlotsAvailable,
    (SlotLive ot s ∧ ¬ SlotQueued ot s ∧ ¬ SlotFresh ot s) ∨
      (¬ SlotLive ot s ∧ SlotQueued ot s ∧ ¬ SlotFresh ot s) ∨
      (¬ SlotLive ot s ∧ ¬ SlotQueued ot s ∧ SlotFresh ot s)
  once : ∀ i j, ot.slotBufferHeadIdx ≤ i → i < j → j < ot.slotBufferNextIdx →
    ot.slotBuffer i ≠ ot.slotBuffer j
  room : ot.slotBufferNextIdx ≤ slotBufferSize
  tail : ot.slotBufferTailIdx = (ot.slotBufferNextIdx : ℤ) - 1
  nFree : ot.slotBufferNFree = (ot.slotBufferNextIdx : ℤ) - ot.slotBufferHeadIdx

/-- An object table on NVM between two processes: the chain of the initial chunks, and every slot
initialized, under an identifier of its own, or unused. -/
structure PersistentTable (m : Mem) : Prop where
  chain : ∀ c < 20, field m (4194304 * c) nextOtChunkF = if c < 19 then 4194304 * (c + 1) else 0
  state : ∀ s < 1260, field m (otSlotAddr s) stateF = stateInitialized ∨
    field m (otSlotAddr s) stateF = stateNone ∨ field m (otSlotAddr s) stateF = stateFreeing
  ids : ∀ s < 1260, ∀ s' < 1260, SlotUsed m s → SlotUsed m s' →
    nvmIdBytes m (otSlotAddr s) = nvmIdBytes m (otSlotAddr s') → s = s'

section

variable {junk : ℕ → List UInt8} {w w' : World} {n s : ℕ}

theorem TableRead.nvmStart_eq (h : TableRead junk w n w') : w'.nvmStart = w.nvmStart := by
  have hworld := congrArg World.nvmStart h.world
  exact hworld

theorem TableRead.nextChunk_eq (h : TableRead junk w n w') : w'.nvm.nextChunk = w.nvm.nextChunk := by
  have hworld := congrArg (fun w : World => w.nvm.nextChunk) h.world
  exact hworld

theorem TableRead.mem_eq (h : TableRead junk w n w') : w'.nvm.mem = clearSlots w.nvm.mem n := by
  have hworld := congrArg (fun w : World => w.nvm.mem) h.world
  exact hworld

theorem TableRead.has_iff (h : TableRead junk w n w') {e : OtEntry} :
    w'.ot.Has e ↔ ∃ s < n, SlotUsed w.nvm.mem s ∧ e = recoveredEntry junk w.nvm.mem s := by
  unfold ObjectTable.Has
  simp only [h.hashmap, List.mem_filter, List.mem_map, mem_usedSlots, decide_eq_true_iff]
  constructor
  · rintro ⟨_, ⟨s, ⟨hs, hused⟩, rfl⟩, -⟩
    exact ⟨s, hs, hused, rfl⟩
  · rintro ⟨s, hs, hused, rfl⟩
    exact ⟨_, ⟨s, ⟨hs, hused⟩, rfl⟩, rfl⟩

theorem TableRead.live_iff (h : TableRead junk w n w') :
    SlotLive w'.ot s ↔ s < n ∧ SlotUsed w.nvm.mem s := by
  unfold SlotLive
  constructor
  · rintro ⟨e, he, rfl⟩
    obtain ⟨s, hs, hused, rfl⟩ := h.has_iff.mp he
    exact ⟨hs, hused⟩
  · rintro ⟨hs, hused⟩
    exact ⟨_, h.has_iff.mpr ⟨s, hs, hused, rfl⟩, rfl⟩

theorem TableRead.queued_iff (h : TableRead junk w n w') :
    SlotQueued w'.ot s ↔ s ∈ gapSlots w.nvm.mem n := by
  unfold SlotQueued
  rw [h.queue.head, h.queue.next, List.mem_iff_getElem?]
  constructor
  · rintro ⟨i, -, hi, rfl⟩
    refine ⟨i, ?_⟩
    rw [h.queue.slot i _ (List.getElem?_eq_getElem hi)]
    exact List.getElem?_eq_getElem hi
  · rintro ⟨i, hi⟩
    exact ⟨i, Nat.zero_le i, (List.getElem?_eq_some_iff.mp hi).1, h.queue.slot i s hi⟩

/-- The slots of a recovered table are in order exactly if slot 0 is used. -/
theorem TableRead.slotInvariant_iff (h : TableRead junk w 1260 w')
    (htotal : w.ot.totalSlotsAvailable = 1260)
    (hnext : w'.ot.nextNvmSlot = lastUsedSlot w.nvm.mem 1260 + 1) :
    SlotInvariant w'.ot ↔ SlotUsed w.nvm.mem 0 := by
  have hq := h.queue
  have hfresh : ∀ s, SlotFresh w'.ot s ↔ lastUsedSlot w.nvm.mem 1260 < s := by
    intro s
    unfold SlotFresh
    rw [hnext]
    exact Nat.succ_le_iff
  constructor
  · intro hinv
    have hplace := hinv.place 0 (by rw [h.total, htotal]; decide)
    rw [h.live_iff, h.queued_iff, hfresh, mem_gapSlots] at hplace
    rcases hplace with ⟨⟨-, hused⟩, -⟩ | ⟨-, ⟨hpos, -⟩, -⟩ | ⟨-, -, hlt⟩
    · exact hused
    · exact absurd hpos (lt_irrefl 0)
    · exact absurd hlt (Nat.not_lt_zero _)
  · intro h0
    refine ⟨fun s hs => ?_, fun i j _ hij hj heq => ?_, ?_, ?_, ?_⟩
    · rw [h.total, htotal] at hs
      rw [h.live_iff, h.queued_iff, hfresh, mem_gapSlots]
      by_cases hused : SlotUsed w.nvm.mem s
      · have hle := le_lastUsedSlot hs hused
        exact Or.inl ⟨⟨hs, hused⟩, fun hgap => hgap.2.2 hused, Nat.not_lt.mpr hle⟩
      · rcases Nat.lt_trichotomy s (lastUsedSlot w.nvm.mem 1260) with hlt | heq | hgt
        · have hpos : 0 < s := by
            refine Nat.pos_of_ne_zero ?_
            rintro rfl
            exact hused h0
          exact Or.inr (Or.inl ⟨fun hlive => hused hlive.2, ⟨hpos, hlt, hused⟩, Nat.lt_asymm hlt⟩)
        · -- the last used slot is unused only if it is slot 0
          rcases lastUsedSlot_used w.nvm.mem 1260 with hz | ⟨-, hlast⟩
          · rw [heq, hz] at hused
            exact absurd h0 hused
          · rw [heq] at hused
            exact absurd hlast hused
        · exact Or.inr (Or.inr ⟨fun hlive => hused hlive.2, fun hgap => Nat.lt_asymm hgt hgap.2.1, hgt⟩)
    · rw [hq.next] at hj
      have hi : i < (gapSlots w.nvm.mem 1260).length := hij.trans hj
      rw [hq.slot i _ (List.getElem?_eq_getElem hi), hq.slot j _ (List.getElem?_eq_getElem hj)] at heq
      exact absurd ((nodup_gapSlots w.nvm.mem 1260).getElem_inj_iff.mp heq) hij.ne
    · rw [hq.next]
      exact hq.room
    · rw [hq.tail, hq.next]
    · rw [hq.nFree, hq.next, hq.head]
      simp

end

/-- `ot_init` and `ot_recover` on a table that no process has open. -/
theorem PersistentTable.recover_spec {nvm : Nvm} (h : PersistentTable nvm.mem) (P : Process) {fuel : ℕ}
    (hfuel : 20 ≤ fuel) :
    Spec (otInit fuel >>= fun _ => otRecover P.junk fuel) (fun _ => True)
      (fun _ w => (gapSlots nvm.mem 1260).length ≤ slotBufferSize ∧
        (SlotInvariant w.ot ↔ SlotUsed nvm.mem 0))
      (fun _ => slotBufferSize < (gapSlots nvm.mem 1260).length) (P.start nvm) := by
  have hstate : ∀ s < 1260, ¬ SlotPending nvm.mem s := by
    intro s hs hpend
    unfold SlotPending at hpend
    rcases h.state s hs with hst | hst | hst <;> rw [hst] at hpend <;> exact absurd hpend (by decide)
  refine (otInit_otRecover_spec (w := P.start nvm) h.chain rfl fun s hs hpend =>
    absurd hpend (hstate s hs)).mono (fun _ h => h) ?_ ?_
  · rintro _ w ⟨hread, hnext⟩
    exact ⟨hread.queue.room, hread.slotInvariant_iff rfl hnext⟩
  · rintro e (⟨-, hlong⟩ | ⟨-, hlt⟩)
    · exact hlong
    · omega

/-- **The slots after `ot_init` and `ot_recover`** are in order, and the slot buffer does not overflow,
exactly if slot 0 is used and at most 200 unused slots lie below the last used one. -/
theorem recovered_slots_iff {P : Process} {nvm : Nvm} {fuel : ℕ} (h : PersistentTable nvm.mem)
    (hfuel : 20 ≤ fuel) :
    (∃ w, ((otInit fuel >>= fun _ => otRecover P.junk fuel) (P.start nvm)).2 = .ok ((), w) ∧
      SlotInvariant w.ot) ↔
    SlotUsed nvm.mem 0 ∧ (gapSlots nvm.mem 1260).length ≤ slotBufferSize := by
  have hspec := h.recover_spec P hfuel
  constructor
  · rintro ⟨w, hret, hinv⟩
    obtain ⟨hroom, hiff⟩ := hspec.result hret
    exact ⟨hiff.mp hinv, hroom⟩
  · rintro ⟨h0, hroom⟩
    obtain ⟨_, w, hret, -, hiff⟩ :=
      (hspec.mono (fun _ h => h) (fun _ _ h => h) fun _ hlong => Nat.not_lt.mpr hroom hlong).returns
    exact ⟨w, hret, hiff.mpr h0⟩

/-- The chain of the object table over the 20 initial chunks, on a medium that is zero otherwise. -/
def chainedMem : Mem := fun a =>
  if a / 4194304 < 19 ∧ nextOtChunkF.off ≤ a % 4194304 ∧ a % 4194304 < nextOtChunkF.off + 8 then
    UInt8.ofNat (4194304 * (a / 4194304 + 1) / 256 ^ (a % 4194304 - nextOtChunkF.off))
  else
    0

/-- A table that uses slot 0, for the empty identifier, and slot 2, for the identifier b. -/
def twoSlotMem : Mem :=
  store (store chainedMem (otSlotAddr 0) 1 stateInitialized) (otSlotAddr 2) 2
    (stateInitialized + 256 * 98)

theorem chainedMem_slot {s a : ℕ} (hlo : otSlotAddr s ≤ a) (hhi : a < otSlotAddr s + 64) :
    chainedMem a = 0 := by
  have hbounds := otSlotAddr_bounds (s := s)
  refine if_neg ?_
  rintro ⟨-, hoff, hoff'⟩
  simp only [nextOtChunkF] at hoff hoff'
  omega

theorem persistentTable_chainedMem : PersistentTable chainedMem := by
  have hnone : ∀ s, field chainedMem (otSlotAddr s) stateF = stateNone := fun s =>
    field_eq_zero fun x hx hx' => chainedMem_slot (s := s) (by omega)
    (by simp only [stateF] at hx'; omega)
  refine ⟨by decide +kernel, fun s _ => Or.inr (Or.inl (hnone s)), fun s _ s' _ hused => ?_⟩
  exact absurd ((hnone s).symm.trans hused) (by decide)

theorem twoSlotMem_state (s : ℕ) :
    field twoSlotMem (otSlotAddr s) stateF = if s = 0 ∨ s = 2 then stateInitialized else stateNone := by
  by_cases hs : s = 0 ∨ s = 2
  · rw [if_pos hs]
    rcases hs with rfl | rfl <;> decide
  · rw [if_neg hs]
    refine field_eq_zero fun x hx hx' => ?_
    simp only [stateF] at hx hx'
    have hd₀ := otSlotAddr_disjoint (fun h => hs (Or.inl h))
    have hd₂ := otSlotAddr_disjoint (fun h => hs (Or.inr h))
    rw [twoSlotMem, store_eqOff _ _ _ _ x (by omega), store_eqOff _ _ _ _ x (by omega)]
    exact chainedMem_slot (s := s) (by omega) (by omega)

theorem slotUsed_twoSlotMem {s : ℕ} : SlotUsed twoSlotMem s ↔ s = 0 ∨ s = 2 := by
  unfold SlotUsed
  rw [twoSlotMem_state]
  split
  · exact iff_of_true rfl ‹_›
  · exact iff_of_false (by decide) ‹_›

theorem persistentTable_twoSlotMem : PersistentTable twoSlotMem := by
  have hids : nvmIdBytes twoSlotMem (otSlotAddr 0) ≠ nvmIdBytes twoSlotMem (otSlotAddr 2) := by
    decide +kernel
  refine ⟨by decide +kernel, fun s _ => ?_, fun s _ s' _ hused hused' heq => ?_⟩
  · rw [twoSlotMem_state]
    split
    · exact Or.inl rfl
    · exact Or.inr (Or.inl rfl)
  · rcases slotUsed_twoSlotMem.mp hused with rfl | rfl <;>
      rcases slotUsed_twoSlotMem.mp hused' with rfl | rfl
    · rfl
    · exact absurd heq hids
    · exact absurd heq.symm hids
    · rfl

/-- Slot 1 lies between the two slots in use. -/
theorem recovered_slots_twoSlotMem : 1 ∈ gapSlots twoSlotMem 1260 ∧ ∃ w,
    ((otInit 20 >>= fun _ => otRecover sampleProcess.junk 20)
      (sampleProcess.start { blankNvm with mem := twoSlotMem })).2 = .ok ((), w) ∧
      SlotInvariant w.ot := by
  have htable : PersistentTable ({ blankNvm with mem := twoSlotMem } : Nvm).mem :=
    persistentTable_twoSlotMem
  have hgaps : gapSlots twoSlotMem 1260 = [1] := by decide +kernel
  refine ⟨hgaps ▸ List.mem_singleton_self 1, (recovered_slots_iff htable le_rfl).mpr
    ⟨slotUsed_twoSlotMem.mpr (Or.inl rfl), ?_⟩⟩
  show (gapSlots twoSlotMem 1260).length ≤ _
  rw [hgaps]
  decide

/-- Slot 0 of an empty table is lost. -/
theorem recovered_slots_lose_slot_zero : PersistentTable chainedMem ∧
    ¬ ∃ w, ((otInit 20 >>= fun _ => otRecover sampleProcess.junk 20)
      (sampleProcess.start { blankNvm with mem := chainedMem })).2 = .ok ((), w) ∧
      SlotInvariant w.ot := by
  refine ⟨persistentTable_chainedMem, ?_⟩
  rintro ⟨w, hret, hinv⟩
  have hspec : Spec _ _ _ _ (sampleProcess.start { blankNvm with mem := chainedMem }) :=
    persistentTable_chainedMem.recover_spec sampleProcess (le_refl 20)
  exact absurd ((hspec.result hret).2.mp hinv) (by decide +kernel)

end NvmMalloc
