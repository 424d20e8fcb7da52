import NvmMalloc.IdMap

/-!
# The slots of the object table

Reference: `src/object_table.c` (`ot_init`, `ot_insert`, `ot_remove`, `slot_buffer`).

A slot is handed out by a counter or comes back through the queue of freed slots.  No slot is lost and
none is in two places: the slots below the counter are those of the entries and those in the queue.

The queue is filled by `ot_remove` at `next_idx` modulo its size, but `tail_idx` holds the index modulo
the size too and is compared with the index before: after 200 removals the expected value is -1, the
stored one 199, and the next removal spins forever.
-/

namespace NvmMalloc

open Memory CrashM

/-! ## Live and pending slots -/

/-- The slots of the entries in the hash map. -/
def ObjectTable.liveSlots (ot : ObjectTable) : List ℕ :=
  (List.range 128).flatMap fun b => (ot.hashmap b).map OtEntry.slot

/-- The slots in the queue, oldest first. -/
def ObjectTable.pendingSlots (ot : ObjectTable) : List ℕ :=
  (List.range' ot.slotBufferHeadIdx (ot.slotBufferNextIdx - ot.slotBufferHeadIdx)).map ot.slotBuffer

/-- No slot is lost and none is used twice, and an insertion fails only if all slots are live. -/
structure SlotsConserved (w : World) : Prop where
  live : w.ot.liveSlots.Nodup
  live_lt : ∀ s ∈ w.ot.liveSlots, s < w.ot.totalSlotsAvailable
  pending : w.ot.pendingSlots.Nodup
  disjoint : ∀ s ∈ w.ot.pendingSlots, s ∉ w.ot.liveSlots
  covered : ∀ s < w.ot.nextNvmSlot, s ∈ w.ot.liveSlots ∨ s ∈ w.ot.pendingSlots
  full : ∀ id dataPtr w', otGet w.ot id = none → (otInsert id dataPtr w).2 = .ok (.fail, w') →
    ∀ s < w.ot.totalSlotsAvailable, s ∈ w.ot.liveSlots

section

variable {ot ot' : ObjectTable} {s : ℕ}

theorem ObjectTable.mem_pendingSlots :
    s ∈ ot.pendingSlots ↔
      ∃ i, ot.slotBufferHeadIdx ≤ i ∧ i < ot.slotBufferNextIdx ∧ ot.slotBuffer i = s := by
  unfold ObjectTable.pendingSlots
  simp only [List.mem_map, List.mem_range'_1]
  constructor
  · rintro ⟨i, ⟨hlo, hhi⟩, hs⟩
    exact ⟨i, hlo, by omega, hs⟩
  · rintro ⟨i, hlo, hhi, hs⟩
    exact ⟨i, ⟨hlo, by omega⟩, hs⟩

theorem OtInv.mem_liveSlots (h : OtInv ot) : s ∈ ot.liveSlots ↔ ∃ e, ot.Has e ∧ e.slot = s := by
  unfold ObjectTable.liveSlots ObjectTable.Has
  simp only [List.mem_flatMap, List.mem_range, List.mem_map]
  constructor
  · rintro ⟨b, -, e, he, hs⟩
    exact ⟨e, ⟨b, he⟩, hs⟩
  · rintro ⟨e, ⟨b, he⟩, hs⟩
    refine ⟨b, ?_, e, he, hs⟩
    rw [← (h.entry he).bucket]
    exact Nat.mod_lt _ (by decide)

/-- Every slot that the counter gave out is live or pending. -/
def ObjectTable.Covered (ot : ObjectTable) : Prop :=
  ∀ s < ot.nextNvmSlot, (∃ e, ot.Has e ∧ e.slot = s) ∨ s ∈ ot.pendingSlots

/-- Entries in their buckets, each once and no two with one slot, have pairwise distinct slots. -/
theorem ObjectTable.nodup_liveSlots (hnodup : ∀ b, (ot.hashmap b).Nodup)
    (hkeyed : ∀ {b e}, e ∈ ot.hashmap b → bucketOf e.id = b)
    (hslots : ∀ {e e'}, ot.Has e → ot.Has e' → e.slot = e'.slot → e = e') : ot.liveSlots.Nodup := by
  unfold ObjectTable.liveSlots
  rw [List.nodup_flatMap]
  refine ⟨fun b _ => ?_, List.nodup_range.imp fun {b b'} hne => ?_⟩
  · refine (List.nodup_map_iff_inj_on (hnodup b)).mpr fun e he e' he' heq => ?_
    exact hslots ⟨b, he⟩ ⟨b, he'⟩ heq
  · intro x hx hx'
    obtain ⟨e, he, rfl⟩ := List.mem_map.mp hx
    obtain ⟨e', he', heq⟩ := List.mem_map.mp hx'
    obtain rfl := hslots ⟨b', he'⟩ ⟨b, he⟩ heq
    exact hne ((hkeyed he).symm.trans (hkeyed he'))

/-- The slots of a table in order are pairwise distinct. -/
theorem OtInv.nodup_liveSlots (h : OtInv ot) : ot.liveSlots.Nodup :=
  ot.nodup_liveSlots h.nodup (fun he => (h.entry he).bucket) h.slots

theorem OtInv.nodup_pendingSlots (h : OtInv ot) : ot.pendingSlots.Nodup := by
  unfold ObjectTable.pendingSlots
  refine (List.nodup_map_iff_inj_on (List.nodup_range' _)).mpr fun i hi j hj heq => ?_
  rw [List.mem_range'_1] at hi hj
  by_contra hne
  rcases Nat.lt_or_gt_of_ne hne with hlt | hlt
  · exact h.queue.inj i j hi.1 hlt (by omega) heq
  · exact h.queue.inj j i hj.1 hlt (by omega) heq.symm

end

/-! ## One call -/

section

variable {w : World} {C : Nvm → Prop} {id : List UInt8} {dataPtr : ℕ}

/-- How `ot_insert` comes to its slot. -/
theorem otTakeSlot_cases (h : OtInv w.ot) :
    Spec otTakeSlot C
      (fun res w' =>
        (res = none ∧ w' = w ∧ w.ot.slotBufferNFree ≤ 0 ∧ w.ot.totalSlotsAvailable ≤ w.ot.nextNvmSlot) ∨
        (res = some w.ot.nextNvmSlot ∧
          w' = w.setOt { w.ot with nextNvmSlot := w.ot.nextNvmSlot + 1 } ∧
          w.ot.slotBufferNFree ≤ 0 ∧ w.ot.nextNvmSlot < w.ot.totalSlotsAvailable) ∨
        (res = some (w.ot.slotBuffer w.ot.slotBufferHeadIdx) ∧ w' = w.setOt { w.ot with
          slotBufferNFree := w.ot.slotBufferNFree - 1
          slotBufferHeadIdx := w.ot.slotBufferHeadIdx + 1 } ∧ 0 < w.ot.slotBufferNFree))
      (fun _ => False) w := by
  have hnFree := h.queue.nFree
  have hsize := h.queue.size
  unfold otTakeSlot
  rw [spec_bind, spec_get, spec_ite]
  refine ⟨fun hempty => ?_, fun hne => ?_⟩
  · rw [spec_ite]
    refine ⟨fun hfull => spec_pure.mpr (Or.inl ⟨rfl, rfl, hempty, hfull⟩), fun hroom => ?_⟩
    rw [spec_bind, spec_modify, spec_pure]
    exact Or.inr (Or.inl ⟨rfl, rfl, hempty, Nat.not_le.mp hroom⟩)
  · rw [spec_ite]
    refine ⟨fun _ => ?_, fun hge => absurd (show _ < _ by omega) hge⟩
    rw [spec_bind, spec_modify, spec_pure]
    exact Or.inr (Or.inr ⟨rfl, rfl, Int.not_le.mp hne⟩)

/-- The entries after an insertion into the hash map. -/
theorem has_hashmapInsert {ot : ObjectTable} {e e' : OtEntry} (h : e' = e ∨ ot.Has e') :
    (hashmapInsert ot e).Has e' := by
  rcases h with rfl | ⟨b, hb⟩
  · refine ⟨bucketOf e'.id, ?_⟩
    show e' ∈ Function.update ot.hashmap _ _ _
    rw [Function.update_self]
    exact List.mem_cons_self
  · refine ⟨b, ?_⟩
    show e' ∈ Function.update ot.hashmap _ _ b
    by_cases hbucket : b = bucketOf e.id
    · rw [hbucket, Function.update_self, ← hbucket]
      exact List.mem_cons_of_mem _ hb
    · rw [Function.update_of_ne hbucket]
      exact hb

/-- `ot_insert` covers the slot it takes; it fails only if the counter has run out and the queue is
empty. -/
theorem otInsert_covered (h : OtInv w.ot) (hcov : w.ot.Covered) :
    Spec (otInsert id dataPtr) C
      (fun r w' => w'.ot.Covered ∧ w'.ot.slotBufferNextIdx = w.ot.slotBufferNextIdx ∧ (r = .fail →
        w.ot.slotBufferNFree ≤ 0 ∧ w.ot.totalSlotsAvailable ≤ w.ot.nextNvmSlot))
      (fun _ => False) w := by
  unfold otInsert
  rw [spec_bind, spec_get, spec_ite]
  refine ⟨fun _ => spec_pure.mpr ⟨hcov, rfl, by simp⟩, fun _ => ?_⟩
  refine (otTakeSlot_cases h).bind ?_
  rintro res w' (⟨rfl, rfl, hfull⟩ | ⟨rfl, rfl, -⟩ | ⟨rfl, rfl, -⟩)
  · exact spec_pure.mpr ⟨hcov, rfl, fun _ => hfull⟩
  · show Spec (modify _ >>= _) _ _ _ _
    rw [spec_bind, spec_modify, spec_pure]
    refine ⟨fun s hs => ?_, rfl, by simp⟩
    by_cases hnew : s = w.ot.nextNvmSlot
    · exact Or.inl ⟨_, has_hashmapInsert (Or.inl rfl), hnew.symm⟩
    · have hlt : s < w.ot.nextNvmSlot + 1 := hs
      rcases hcov s (by omega) with ⟨e, he, heq⟩ | hpending
      · exact Or.inl ⟨e, has_hashmapInsert (Or.inr he), heq⟩
      · exact Or.inr hpending
  · show Spec (modify _ >>= _) _ _ _ _
    rw [spec_bind, spec_modify, spec_pure]
    refine ⟨fun s hs => ?_, rfl, by simp⟩
    rcases hcov s hs with ⟨e, he, heq⟩ | hpending
    · exact Or.inl ⟨e, has_hashmapInsert (Or.inr he), heq⟩
    · obtain ⟨i, hlo, hhi, heq⟩ := ObjectTable.mem_pendingSlots.mp hpending
      by_cases hi : i = w.ot.slotBufferHeadIdx
      · exact Or.inl ⟨_, has_hashmapInsert (Or.inl rfl), by rw [← heq, hi]⟩
      · exact Or.inr (ObjectTable.mem_pendingSlots.mpr ⟨i, by show _ + 1 ≤ i; omega, hhi, heq⟩)

/-- The slot of a removed entry is pending. -/
theorem ObjectTable.Covered.remove {ot ot' : ObjectTable} {e : OtEntry} (hcov : ot.Covered)
    (hle : ot.slotBufferHeadIdx ≤ ot.slotBufferNextIdx)
    (hhas : ∀ e', ot'.Has e' ↔ ot.Has e' ∧ e' ≠ e)
    (hnext : ot'.slotBufferNextIdx = ot.slotBufferNextIdx + 1)
    (hhead : ot'.slotBufferHeadIdx = ot.slotBufferHeadIdx) (hused : ot'.nextNvmSlot = ot.nextNvmSlot)
    (hbuffer : ot'.slotBuffer = Function.update ot.slotBuffer ot.slotBufferNextIdx e.slot) :
    ot'.Covered := by
  intro s hs
  rw [hused] at hs
  rw [ObjectTable.mem_pendingSlots, hnext, hhead, hbuffer]
  rcases hcov s hs with ⟨e', he', heq⟩ | hpending
  · by_cases hee : e' = e
    · exact Or.inr ⟨_, hle, Nat.lt_succ_self _, by rw [Function.update_self, ← heq, hee]⟩
    · exact Or.inl ⟨e', (hhas e').mpr ⟨he', hee⟩, heq⟩
  · obtain ⟨i, hlo, hhi, heq⟩ := ObjectTable.mem_pendingSlots.mp hpending
    exact Or.inr ⟨i, hlo, Nat.lt_succ_of_lt hhi, by rw [Function.update_of_ne hhi.ne, heq]⟩

end

/-! ## Whole runs -/

/-- The table is in order and covers its slots, and every removal has used one index of the queue. -/
structure SlotInv (h : List (OtCall × OtResult)) (w : World) : Prop where
  inv : OtInv w.ot
  covered : w.ot.Covered
  next : w.ot.slotBufferNextIdx = removals h

section

variable {P : Process} {nvm : Nvm} {fuel : ℕ} {w₀ w : World} {h : List (OtCall × OtResult)}

theorem slotInv_start (hinit : (nvmInitialize P.junk fuel false (P.start nvm)).2 = .ok ((), w)) :
    SlotInv [] w := by
  obtain ⟨⟨-, -, ht, -⟩, hot, -⟩ := (nvmInitialize_fresh_spec P nvm P.junk fuel).result hinit
  refine ⟨ht.ot, fun s hs => ?_, ?_⟩ <;> rw [hot] at *
  · exact absurd hs (Nat.not_lt_zero _)
  · rfl

theorem removals_snoc (x : OtCall × OtResult) : removals (h ++ [x]) = removals h + removals [x] := by
  unfold removals
  rw [List.countP_append]

/-- **The slots of every run** from a fresh store. -/
theorem OtRun.slotInv (hrun : OtRun w₀ h w) (h₀ : SlotInv [] w₀)
    (hids : ∀ x ∈ h, (0 : UInt8) ∉ x.1.id) : SlotInv h w := by
  induction hrun with
  | nil => exact h₀
  | @snoc h w w' c r hrun htyped hcall ih =>
    obtain ⟨hinv, hcov, hnext⟩ := ih fun x hx => hids x (List.mem_append_left _ hx)
    have hnul := hids (c, r) (List.mem_append_right _ List.mem_cons_self)
    cases c with
    | insert id dataPtr =>
      obtain ⟨ot', hw', hinv', -⟩ :=
        (otInsert_spec (C := fun _ => True) hinv hnul htyped).result hcall
      obtain ⟨hcov', hnext', -⟩ := (otInsert_covered (C := fun _ => True) hinv hcov).result hcall
      refine ⟨by rw [hw']; exact hinv', hcov', ?_⟩
      rw [hnext', hnext, removals_snoc]
      rfl
    | remove id =>
      have hcases := (otRemove_cases (C := fun _ => True) hinv id).result hcall
      rcases hcases with ⟨rfl, -, rfl⟩ | ⟨rfl, e, ot', -, -, rfl, hinv', hhas, hn, hh, hu, hb, -⟩
      · exact ⟨hinv, hcov, by rw [hnext, removals_snoc]; rfl⟩
      · refine ⟨hinv', hcov.remove hinv.queue.le hhas hn hh hu hb, ?_⟩
        rw [removals_snoc, ← hnext]
        exact hn

/-- **Slots are conserved and unique** after every sequence of completed insertions and removals. -/
theorem slots_conserved
    (hinit : (nvmInitialize P.junk fuel false (P.start nvm)).2 = .ok ((), w₀)) (hrun : OtRun w₀ h w)
    (hids : ∀ x ∈ h, (0 : UInt8) ∉ x.1.id) : SlotsConserved w := by
  obtain ⟨hinv, hcov, -⟩ := hrun.slotInv (slotInv_start hinit) hids
  have htotal := hinv.total
  have hnext := hinv.next
  refine ⟨hinv.nodup_liveSlots, fun s hs => ?_, hinv.nodup_pendingSlots, fun s hs hlive => ?_,
    fun s hs => ?_, fun id dataPtr w' _ hcall s hs => ?_⟩
  · obtain ⟨e, ⟨b, he⟩, rfl⟩ := hinv.mem_liveSlots.mp hs
    have hslot := (hinv.entry he).slot
    omega
  · obtain ⟨i, hlo, hhi, rfl⟩ := ObjectTable.mem_pendingSlots.mp hs
    obtain ⟨e, he, heq⟩ := hinv.mem_liveSlots.mp hlive
    exact (hinv.queue.slot i hlo hhi).2 e he heq
  · rcases hcov s hs with hlive | hpending
    · exact Or.inl (hinv.mem_liveSlots.mpr hlive)
    · exact Or.inr hpending
  · obtain ⟨-, -, hfail⟩ := (otInsert_covered (C := fun _ => True) hinv hcov).result hcall
    obtain ⟨hempty, hfull⟩ := hfail rfl
    rcases hcov s (by omega) with hlive | hpending
    · exact hinv.mem_liveSlots.mpr hlive
    · obtain ⟨i, hlo, hhi, -⟩ := ObjectTable.mem_pendingSlots.mp hpending
      have hcount := hinv.queue.nFree
      omega

/-- **A removal returns if and only if** its identifier is absent or the queue was not filled up yet. -/
theorem remove_returns_iff
    (hinit : (nvmInitialize P.junk fuel false (P.start nvm)).2 = .ok ((), w₀)) (hrun : OtRun w₀ h w)
    (hids : ∀ x ∈ h, (0 : UInt8) ∉ x.1.id) (id : List UInt8) :
    (∃ r w', (otRemove id w).2 = .ok (r, w')) ↔
      otGet w.ot id = none ∨ removals h < slotBufferSize := by
  obtain ⟨hinv, -, hnext⟩ := hrun.slotInv (slotInv_start hinit) hids
  rw [← hnext]
  constructor
  · rintro ⟨r, w', hcall⟩
    rcases (otRemove_cases (C := fun _ => True) hinv id).result hcall with
      ⟨-, hnone, -⟩ | ⟨-, e, ot', -, hroom, -⟩
    · exact Or.inl hnone
    · exact Or.inr hroom
  · intro hcond
    have hspec : Spec (otRemove id) (fun _ => True) (fun _ _ => True) (fun _ => False) w := by
      refine (otRemove_cases (C := fun _ => True) hinv id).mono (fun _ _ => trivial)
        (fun _ _ _ => trivial) ?_
      rintro stop ⟨-, hsome, hfull⟩
      rcases hcond with hnone | hroom
      · rw [hnone] at hsome
        exact Bool.false_ne_true hsome
      · omega
    obtain ⟨r, w', hcall, -⟩ := hspec.returns
    exact ⟨r, w', hcall⟩

/-! ### Filling up the queue -/

/-- A table that holds nothing has no entries. -/
theorem MapInv.not_has (hm : MapInv h w) (hempty : mapAfter h = fun _ => none) (e : OtEntry) :
    ¬ w.ot.Has e := by
  rintro ⟨b, he⟩
  have hok := hm.inv.entry he
  have hget := hm.get e.id (keyFits_of_length_le hok.len)
  rw [hempty, Option.map_eq_none_iff] at hget
  rw [← hok.bucket] at he
  exact List.find?_eq_none.mp hget e he (equalFn_iff.mpr rfl)

/-- An insertion into an empty table succeeds. -/
theorem MapInv.insert_empty (hm : MapInv h w) (hs : SlotInv h w) (hempty : mapAfter h = fun _ => none) :
    ∃ w', (otInsert [97] 64 w).2 = .ok (.ok, w') ∧ MapInv (h ++ [(.insert [97] 64, .ok)]) w' := by
  obtain ⟨r, w', hret, hdup, hm'⟩ := otInsert_map hm (show (0 : UInt8) ∉ [97] by decide)
    (by decide) (show 64 < 2 ^ 64 by decide)
  have hr : r = .ok := by
    cases r with
    | ok => rfl
    | duplicate =>
      have hsome := hdup.mp rfl
      rw [hempty] at hsome
      exact absurd hsome Bool.false_ne_true
    | fail =>
      obtain ⟨-, -, hfail⟩ := (otInsert_covered (C := fun _ => True) hs.inv hs.covered).result hret
      obtain ⟨hfree, hfull⟩ := hfail rfl
      have htotal := hs.inv.total
      rcases hs.covered 0 (by omega) with ⟨e, he, -⟩ | hpending
      · exact absurd he (hm.not_has hempty e)
      · obtain ⟨i, hlo, hhi, -⟩ := ObjectTable.mem_pendingSlots.mp hpending
        have hcount := hs.inv.queue.nFree
        omega
  rw [hr] at hret hm'
  exact ⟨w', hret, hm'⟩

/-- Inserting and removing one identifier `n` times. -/
def churn : ℕ → List (OtCall × OtResult)
  | 0 => []
  | n + 1 => churn n ++ [(.insert [97] 64, .ok)] ++ [(.remove [97], .ok)]

theorem removals_churn (n : ℕ) : removals (churn n) = n := by
  induction n with
  | zero => rfl
  | succ n ih =>
    unfold churn
    rw [removals_snoc, removals_snoc, ih]
    rfl

theorem mapAfter_churn (n : ℕ) : mapAfter (churn n) = fun _ => none := by
  induction n with
  | zero => rfl
  | succ n ih =>
    unfold churn
    rw [mapAfter_snoc, mapAfter_snoc, ih]
    funext id
    show (if equalFn id [97] then none else if equalFn id [97] then some 64 else none) = none
    cases equalFn id [97] <;> rfl

theorem churn_id {n : ℕ} {x : OtCall × OtResult} (hx : x ∈ churn n) : x.1.id = [97] := by
  induction n with
  | zero => exact absurd hx List.not_mem_nil
  | succ n ih =>
    rcases List.mem_append.mp hx with hx | hx
    · rcases List.mem_append.mp hx with hx | hx
      · exact ih hx
      · rw [List.mem_singleton.mp hx]
        rfl
    · rw [List.mem_singleton.mp hx]
      rfl

/-- The queue can be filled up. -/
theorem exists_churn (hm₀ : MapInv [] w₀) (h₀ : SlotInv [] w₀) {n : ℕ} (hn : n ≤ slotBufferSize) :
    ∃ w, OtRun w₀ (churn n) w ∧ MapInv (churn n) w := by
  induction n with
  | zero => exact ⟨w₀, .nil, hm₀⟩
  | succ n ih =>
    obtain ⟨w, hrun, hm⟩ := ih (by omega)
    have hs := hrun.slotInv h₀ fun x hx => by rw [churn_id hx]; decide
    obtain ⟨w₁, hret₁, hm₁⟩ := hm.insert_empty hs (mapAfter_churn n)
    have hrun₁ := hrun.snoc (c := .insert [97] 64) (by show 64 < 2 ^ 64; decide) hret₁
    obtain ⟨r, w₂, hret₂, hok, hm₂⟩ := otRemove_map hm₁ (show KeyFits [97] by decide) (Or.inl (by
      rw [removals_snoc, removals_churn]
      exact hn))
    obtain rfl : r = .ok := hok.mpr (by rw [mapAfter_snoc]; rfl)
    exact ⟨w₂, hrun₁.snoc (c := .remove [97]) trivial hret₂, hm₂⟩

end

/-- Three live slots, one of which was freed before. -/
theorem slots_conserved_sample : ∃ w₀ w,
    (nvmInitialize sampleProcess.junk 20 false (sampleProcess.start blankNvm)).2 = .ok ((), w₀) ∧
    OtRun w₀ sampleCalls w ∧ SlotsConserved w := by
  obtain ⟨w₀, w, hinit, hrun⟩ := exists_sampleCalls
  exact ⟨w₀, w, hinit, hrun, slots_conserved hinit hrun (by decide)⟩

/-- The removal after the first 200 rounds: the identifier is absent, so it returns. -/
theorem remove_returns_absent : ∃ w₀ w,
    (nvmInitialize sampleProcess.junk 20 false (sampleProcess.start blankNvm)).2 = .ok ((), w₀) ∧
    OtRun w₀ (churn 200) w ∧ ∃ r w', (otRemove [97] w).2 = .ok (r, w') := by
  obtain ⟨w₀, hinit⟩ := exists_start
  obtain ⟨w, hrun, hm⟩ := exists_churn (mapInv_start hinit) (slotInv_start hinit) (n := 200) (by decide)
  have hget := hm.get [97] (by decide)
  rw [mapAfter_churn, Option.map_eq_none_iff] at hget
  exact ⟨w₀, w, hinit, hrun, (remove_returns_iff hinit hrun
    (fun x hx => by rw [churn_id hx]; decide) [97]).mpr (Or.inl hget)⟩

/-- After 200 removals the identifier is inserted once more, and its removal spins. -/
theorem remove_spins_after_wrap : ∃ w₀ w,
    (nvmInitialize sampleProcess.junk 20 false (sampleProcess.start blankNvm)).2 = .ok ((), w₀) ∧
    OtRun w₀ (churn 200 ++ [(.insert [97] 64, .ok)]) w ∧ (otRemove [97] w).2 = .error .diverges := by
  obtain ⟨w₀, hinit⟩ := exists_start
  have h₀ := slotInv_start hinit
  obtain ⟨w, hrun, hm⟩ := exists_churn (mapInv_start hinit) h₀ (n := 200) (by decide)
  have hs := hrun.slotInv h₀ fun x hx => by rw [churn_id hx]; decide
  obtain ⟨w₁, hret, hm₁⟩ := hm.insert_empty hs (mapAfter_churn 200)
  have hrun₁ := hrun.snoc (c := .insert [97] 64) (by show 64 < 2 ^ 64; decide) hret
  refine ⟨w₀, w₁, hinit, hrun₁, ?_⟩
  have hfull : w₁.ot.slotBufferNextIdx = slotBufferSize := by
    rw [hm₁.next, removals_snoc, removals_churn]
    rfl
  have hspec := otRemove_cases (C := fun _ => True) hm₁.inv [97]
  have hstop := hspec.2
  rcases hr : (otRemove [97] w₁).2 with stop | ⟨r, w'⟩
  · rw [hr] at hstop
    rw [hstop.1]
  · rcases hspec.result hr with ⟨-, hnone, -⟩ | ⟨-, e, ot', -, hroom, -⟩
    · have hget := hm₁.get [97] (by decide)
      rw [hnone, mapAfter_snoc] at hget
      exact absurd hget (by simp [mapStep, equalFn])
    · omega

end NvmMalloc
