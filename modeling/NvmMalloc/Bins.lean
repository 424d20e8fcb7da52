import NvmMalloc.Arena
import NvmMalloc.Lib.LinkedList
import Mathlib.Algebra.Order.BigOperators.Group.List

/-!
# Bins

Reference: `src/arena.c` (the sections of `arena_allocate` and `arena_free` under the bin's mutex).

A bin serves the requests of one size class from its runs.  `BinInv` relates the counters of the bin
and of its runs, the volatile bitmaps, `current_run` and the list `runs`; every section keeps it.  A
section is atomic, so an interleaving of sections of several threads is a sequence of steps of
`BinStep`.
-/

namespace NvmMalloc

/-! ## Counting clear bits -/

theorem clearBits_succ (bm : ℕ → Bool) (n : ℕ) :
    clearBits bm (n + 1) = clearBits bm n + if bm n then 0 else 1 := by
  unfold clearBits
  rw [List.range_succ, List.countP_append, List.countP_singleton]
  cases bm n <;> simp

theorem clearBits_le (bm : ℕ → Bool) (n : ℕ) : clearBits bm n ≤ n := by
  unfold clearBits
  exact List.countP_le_length.trans (List.length_range).le

theorem clearBits_false (n : ℕ) : clearBits (fun _ => false) n = n := by
  unfold clearBits
  simp

theorem clearBits_congr {bm bm' : ℕ → Bool} {n : ℕ} (h : ∀ i < n, bm' i = bm i) :
    clearBits bm' n = clearBits bm n := by
  unfold clearBits
  refine List.countP_congr fun i hi => ?_
  rw [h i (List.mem_range.mp hi)]

/-- Setting a clear bit. -/
theorem clearBits_set {bm : ℕ → Bool} {n i : ℕ} (hi : i < n) (hbit : bm i = false) :
    clearBits (Function.update bm i true) n + 1 = clearBits bm n := by
  induction n with
  | zero => omega
  | succ n ih =>
    rw [clearBits_succ, clearBits_succ]
    by_cases hin : i = n
    · subst hin
      have hlow : clearBits (Function.update bm i true) i = clearBits bm i :=
        clearBits_congr fun j hj => Function.update_of_ne (by omega) ..
      rw [hlow, Function.update_self, hbit]
      simp
    · rw [Function.update_of_ne (by omega)]
      have := ih (by omega)
      omega

/-- Clearing a set bit. -/
theorem clearBits_clear {bm : ℕ → Bool} {n i : ℕ} (hi : i < n) (hbit : bm i = true) :
    clearBits (Function.update bm i false) n = clearBits bm n + 1 := by
  have h := @clearBits_set (Function.update bm i false) n i hi (Function.update_self ..)
  rw [Function.update_idem, ← hbit, Function.update_eq_self] at h
  exact h.symm

theorem firstClear_some {bm : ℕ → Bool} {n i : ℕ} (h : firstClear bm n = some i) :
    i < n ∧ bm i = false := by
  unfold firstClear at h
  refine ⟨List.mem_range.mp (List.mem_of_find?_eq_some h), ?_⟩
  simpa using List.find?_some h

/-- A positive count means that the search finds a bit. -/
theorem firstClear_isSome {bm : ℕ → Bool} {n : ℕ} (h : 0 < clearBits bm n) :
    ∃ i, firstClear bm n = some i := by
  unfold clearBits at h
  obtain ⟨i, hi, hbit⟩ := List.countP_pos_iff.mp h
  exact Option.isSome_iff_exists.mp (List.find?_isSome.mpr ⟨i, hi, hbit⟩)

/-! ## The invariant -/

/-- The pages of the largest heap. -/
def maxPages : ℕ := maxNvmChunks * 1024

theorem maxPages_eq : maxPages = 26214400 := by
  decide

/-- What holds of a bin with element size `nBytes` whose runs are `R`, whenever its mutex is free. -/
structure BinInv (nBytes : ℕ) (H : ℕ → ArenaRun) (b : ArenaBin) (R : List ℕ) : Prop where
  nodup : R.Nodup
  pages : (R.map fun r => (H r).nvmRun).Nodup
  inHeap : ∀ r ∈ R, ∃ p < maxPages, (H r).nvmRun = p * blockSize
  max : ∀ r ∈ R, (H r).nMax = slotsPerRun nBytes
  free : ∀ r ∈ R, (H r).nFree = clearBits (H r).bitmap (H r).nMax
  sum : b.nFree = (R.map fun r => (H r).nFree).sum
  cur : ∀ r, b.currentRun = some r → r ∈ R
  list : ∃ l, Linked (fun r => (H r).next) b.runs l ∧
    ∀ r, r ∈ l ↔ r ∈ R ∧ 0 < (H r).nFree ∧ b.currentRun ≠ some r

theorem slotsPerRun_le {nBytes : ℕ} (h : 64 ≤ nBytes) : slotsPerRun nBytes ≤ 63 := by
  have hdiv : (blockSize - 64) / nBytes ≤ (blockSize - 64) / 64 := Nat.div_le_div_left h (by omega)
  simpa [slotsPerRun] using hdiv

theorem slotsPerRun_pos {nBytes : ℕ} (h : 64 ≤ nBytes) (hsmall : nBytes ≤ sclassSmallMax) :
    0 < slotsPerRun nBytes := by
  unfold slotsPerRun
  refine Nat.div_pos ?_ (by omega)
  simp only [sclassSmallMax, blockSize] at hsmall ⊢
  omega

/-- Changing the value of one index in a sum. -/
theorem sum_map_update {f : ℕ → ℕ} {R : List ℕ} {r : ℕ} (v : ℕ) (hnd : R.Nodup) (hr : r ∈ R) :
    (R.map (Function.update f r v)).sum + f r = (R.map f).sum + v := by
  induction R with
  | nil => exact absurd hr (by simp)
  | cons x R ih =>
    obtain ⟨hx, hnd⟩ := List.nodup_cons.mp hnd
    rw [List.map_cons, List.map_cons, List.sum_cons, List.sum_cons]
    rcases List.mem_cons.mp hr with rfl | hr
    · have hrest : R.map (Function.update f r v) = R.map f :=
        List.map_congr_left fun y hy => Function.update_of_ne (ne_of_mem_of_not_mem hy hx) ..
      rw [hrest, Function.update_self]
      omega
    · rw [Function.update_of_ne (ne_of_mem_of_not_mem hr hx).symm]
      have := ih hnd hr
      omega

/-- Projecting a field out of an updated family. -/
theorem field_update {β : Type} (g : ArenaRun → β) (H : ℕ → ArenaRun) (r : ℕ) (x : ArenaRun) :
    (fun k => g (Function.update H r x k)) = Function.update (fun k => g (H k)) r (g x) := by
  funext k
  by_cases hk : k = r
  · subst hk; simp
  · rw [Function.update_of_ne hk, Function.update_of_ne hk]

namespace BinInv

variable {nBytes : ℕ} {H : ℕ → ArenaRun} {b : ArenaBin} {R : List ℕ}

theorem nFree_le (h : BinInv nBytes H b R) {r : ℕ} (hr : r ∈ R) :
    (H r).nFree ≤ slotsPerRun nBytes := by
  rw [h.free r hr, h.max r hr]
  exact clearBits_le ..

/-- A bin has at most as many runs as the heap has pages. -/
theorem length_le (h : BinInv nBytes H b R) : R.length ≤ maxPages := by
  have hsub : (R.map fun r => (H r).nvmRun) ⊆ (List.range maxPages).map (· * blockSize) := by
    intro x hx
    obtain ⟨r, hr, rfl⟩ := List.mem_map.mp hx
    obtain ⟨p, hp, heq⟩ := h.inHeap r hr
    exact List.mem_map.mpr ⟨p, List.mem_range.mpr hp, heq.symm⟩
  have hlen := (List.subperm_of_subset h.pages hsub).length_le
  rwa [List.length_map, List.length_map, List.length_range] at hlen

/-- The counter of the bin stays far below its width. -/
theorem nFree_lt (h : BinInv nBytes H b R) (h64 : 64 ≤ nBytes) : b.nFree + 63 < 2 ^ 32 := by
  have hle : (R.map fun r => (H r).nFree).sum ≤ (R.map fun r => (H r).nFree).length * 63 := by
    refine List.sum_le_card_nsmul _ 63 fun x hx => ?_
    obtain ⟨r, hr, rfl⟩ := List.mem_map.mp hx
    exact (h.nFree_le hr).trans (slotsPerRun_le h64)
  have hlen := h.length_le
  rw [List.length_map, ← h.sum] at hle
  rw [maxPages_eq] at hlen
  omega

/-- The bin has free slots exactly when one of its runs does. -/
theorem nFree_pos_iff (h : BinInv nBytes H b R) :
    0 < b.nFree ↔ ∃ r ∈ R, 0 < (H r).nFree := by
  rw [h.sum, Nat.pos_iff_ne_zero, Ne, List.sum_eq_zero_iff]
  simp only [List.mem_map, forall_exists_index, and_imp, forall_apply_eq_imp_iff₂, not_forall]
  simp only [exists_prop, Nat.pos_iff_ne_zero]

/-- Changing the bitmap, the counter or the link of one run. -/
theorem updateRun (h : BinInv nBytes H b R) {r : ℕ} (hr : r ∈ R) {x : ArenaRun} {b' : ArenaBin}
    (hpage : x.nvmRun = (H r).nvmRun) (hmax : x.nMax = (H r).nMax)
    (hfree : x.nFree = clearBits x.bitmap x.nMax) (hsum : b'.nFree + (H r).nFree = b.nFree + x.nFree)
    (hcur : b'.currentRun = b.currentRun)
    (hlist : ∃ l, Linked (fun k => (Function.update H r x k).next) b'.runs l ∧
      ∀ k, k ∈ l ↔ k ∈ R ∧ 0 < (Function.update H r x k).nFree ∧ b.currentRun ≠ some k) :
    BinInv nBytes (Function.update H r x) b' R := by
  have hcases : ∀ (P : ℕ → ArenaRun → Prop), (∀ k ∈ R, P k (H k)) → P r x →
      ∀ k ∈ R, P k (Function.update H r x k) := by
    intro P hold hnew k hk
    by_cases hkr : k = r
    · subst hkr; rwa [Function.update_self]
    · rw [Function.update_of_ne hkr]; exact hold k hk
  have hpages : (fun k => (Function.update H r x k).nvmRun) = fun k => (H k).nvmRun := by
    rw [field_update ArenaRun.nvmRun, hpage, Function.update_eq_self]
  refine ⟨h.nodup, ?_, ?_, ?_, ?_, ?_, ?_, ?_⟩
  · rw [hpages]
    exact h.pages
  · refine hcases (fun _ y => ∃ p < maxPages, y.nvmRun = p * blockSize) h.inHeap ?_
    rw [hpage]
    exact h.inHeap r hr
  · exact hcases (fun _ y => y.nMax = slotsPerRun nBytes) h.max (hmax.trans (h.max r hr))
  · exact hcases (fun _ y => y.nFree = clearBits y.bitmap y.nMax) h.free hfree
  · have hupd := sum_map_update (f := fun k => (H k).nFree) x.nFree h.nodup hr
    rw [field_update ArenaRun.nFree]
    have := h.sum
    omega
  · rw [hcur]
    exact h.cur
  · rw [hcur]
    exact hlist

/-! ## The sections keep the invariant -/

/-- Taking the head of the list when the current run is absent or full. -/
theorem popRun_spec (h : BinInv nBytes H b R) (hpos : 0 < b.nFree)
    (hfull : ∀ r, b.currentRun = some r → (H r).nFree = 0) :
    ∃ r, popRun H b = some (r, { b with runs := (H r).next, currentRun := some r }) ∧ r ∈ R ∧
      0 < (H r).nFree ∧ BinInv nBytes H { b with runs := (H r).next, currentRun := some r } R := by
  obtain ⟨l, hl, hmem⟩ := h.list
  obtain ⟨r', hr', hr'pos⟩ := h.nFree_pos_iff.mp hpos
  have hmem' : r' ∈ l := (hmem r').mpr ⟨hr', hr'pos, fun hc => by have := hfull r' hc; omega⟩
  cases l with
  | nil => exact absurd hmem' (by simp)
  | cons r l =>
    obtain ⟨hr, hrpos, -⟩ := (hmem r).mp List.mem_cons_self
    have hnd := List.nodup_cons.mp hl.nodup
    have hpop : popRun H b = some (r, { b with runs := (H r).next, currentRun := some r }) := by
      rw [popRun, hl.1]
    refine ⟨r, hpop, hr, hrpos, h.nodup, h.pages, h.inHeap, h.max, h.free, h.sum, ?_, l, hl.2, ?_⟩
    · intro k hk
      rwa [← Option.some.inj hk]
    · intro k
      constructor
      · intro hk
        obtain ⟨hkR, hkpos, -⟩ := (hmem k).mp (List.mem_cons_of_mem r hk)
        exact ⟨hkR, hkpos, fun hc => hnd.1 (Option.some.inj hc ▸ hk)⟩
      · rintro ⟨hkR, hkpos, hne⟩
        have hk : k ∈ r :: l :=
          (hmem k).mpr ⟨hkR, hkpos, fun hc => by have := hfull k hc; omega⟩
        rcases List.mem_cons.mp hk with rfl | hk
        · exact absurd rfl hne
        · exact hk

/-- A bin with free slots offers a run with a free slot. -/
theorem selectRun_spec (h : BinInv nBytes H b R) (hpos : 0 < b.nFree) :
    ∃ r b', selectRun H b = some (r, b') ∧ r ∈ R ∧ 0 < (H r).nFree ∧ b'.currentRun = some r ∧
      BinInv nBytes H b' R := by
  cases hc : b.currentRun with
  | none =>
    obtain ⟨r, hpop, hr, hrpos, hinv⟩ := h.popRun_spec hpos (by simp [hc])
    exact ⟨r, _, by rw [selectRun, hc]; exact hpop, hr, hrpos, rfl, hinv⟩
  | some r =>
    by_cases hfull : (H r).nFree = 0
    · obtain ⟨r', hpop, hr', hrpos, hinv⟩ := h.popRun_spec hpos (by
        intro k hk
        rw [hc] at hk
        rwa [← Option.some.inj hk])
      refine ⟨r', _, ?_, hr', hrpos, rfl, hinv⟩
      simp only [selectRun, hc, hfull, if_true]
      exact hpop
    · refine ⟨r, b, ?_, h.cur r hc, by omega, hc, h⟩
      simp only [selectRun, hc, hfull, if_false]

/-- The bitmap search succeeds on the selected run, and both counters go down by one. -/
theorem takeSlot_spec (h : BinInv nBytes H b R) (h64 : 64 ≤ nBytes) {r : ℕ}
    (hc : b.currentRun = some r) (hpos : 0 < (H r).nFree) :
    ∃ i < slotsPerRun nBytes, (H r).bitmap i = false ∧
      takeSlot H b r nBytes = (some i,
        Function.update H r { H r with
          bitmap := Function.update (H r).bitmap i true, nFree := (H r).nFree - 1 },
        { b with nFree := b.nFree - 1 }) ∧
      BinInv nBytes (takeSlot H b r nBytes).2.1 (takeSlot H b r nBytes).2.2 R := by
  have hr := h.cur r hc
  have hcount := h.free r hr
  rw [h.max r hr] at hcount
  obtain ⟨i, hi⟩ := firstClear_isSome (hcount ▸ hpos)
  obtain ⟨hlt, hbit⟩ := firstClear_some hi
  have hslots := (h.nFree_le hr).trans (slotsPerRun_le h64)
  have hbin := h.nFree_lt h64
  have hbpos : 0 < b.nFree := h.nFree_pos_iff.mpr ⟨r, hr, hpos⟩
  have htake : takeSlot H b r nBytes = (some i,
      Function.update H r { H r with
        bitmap := Function.update (H r).bitmap i true, nFree := (H r).nFree - 1 },
      { b with nFree := b.nFree - 1 }) := by
    have h16 : ((H r).nFree + 2 ^ 16 - 1) % 2 ^ 16 = (H r).nFree - 1 := by omega
    have h32 : (b.nFree + 2 ^ 32 - 1) % 2 ^ 32 = b.nFree - 1 := by omega
    simp only [takeSlot, hi, h16, h32]
  refine ⟨i, hlt, hbit, htake, ?_⟩
  rw [htake]
  refine h.updateRun hr rfl rfl ?_ (by simp only; omega) rfl ?_
  · have hset := clearBits_set hlt hbit
    simp only [h.max r hr]
    omega
  · obtain ⟨l, hl, hmem⟩ := h.list
    -- the current run is not on the list, so no link and no membership changes
    have hrl : r ∉ l := fun hrl => ((hmem r).mp hrl).2.2 hc
    refine ⟨l, hl.congr fun k hk => ?_, fun k => ?_⟩
    · rw [Function.update_of_ne (ne_of_mem_of_not_mem hk hrl)]
    · by_cases hkr : k = r
      · subst hkr
        simp [hrl, hc]
      · rw [Function.update_of_ne hkr]
        exact hmem k

/-- A new run joins a bin without free slots. -/
theorem addRun_spec (h : BinInv nBytes H b R) (h64 : 64 ≤ nBytes) (hempty : b.nFree = 0)
    {k p a i : ℕ} (hk : k ∉ R) (hp : p < maxPages) (hfresh : ∀ r ∈ R, (H r).nvmRun ≠ p * blockSize) :
    BinInv nBytes (Function.update H k (freshRun a i nBytes (p * blockSize) (H k)))
      (addRun b k nBytes) (k :: R) := by
  have hold : ∀ r ∈ R, Function.update H k (freshRun a i nBytes (p * blockSize) (H k)) r = H r :=
    fun r hr => Function.update_of_ne (ne_of_mem_of_not_mem hr hk) ..
  have hzero : ∀ r ∈ R, (H r).nFree = 0 := by
    intro r hr
    by_contra hne
    have := h.nFree_pos_iff.mpr ⟨r, hr, by omega⟩
    omega
  have hslots := slotsPerRun_le h64
  have hcons : ∀ (P : ArenaRun → Prop), (∀ r ∈ R, P (H r)) →
      P (freshRun a i nBytes (p * blockSize) (H k)) →
      ∀ r ∈ k :: R, P (Function.update H k (freshRun a i nBytes (p * blockSize) (H k)) r) := by
    intro P hP hnew r hr
    rcases List.mem_cons.mp hr with rfl | hr
    · rwa [Function.update_self]
    · rw [hold r hr]; exact hP r hr
  refine ⟨List.nodup_cons.mpr ⟨hk, h.nodup⟩, ?_, ?_, ?_, ?_, ?_, ?_, ?_⟩
  · rw [List.map_cons, Function.update_self, List.map_congr_left fun r hr => by rw [hold r hr]]
    refine List.nodup_cons.mpr ⟨fun hmem => ?_, h.pages⟩
    obtain ⟨r, hr, heq⟩ := List.mem_map.mp hmem
    exact hfresh r hr heq
  · exact hcons (fun y => ∃ p < maxPages, y.nvmRun = p * blockSize) h.inHeap ⟨p, hp, rfl⟩
  · exact hcons (fun y => y.nMax = slotsPerRun nBytes) h.max rfl
  · exact hcons (fun y => y.nFree = clearBits y.bitmap y.nMax) h.free (clearBits_false _).symm
  · have hsum := h.sum
    rw [List.map_cons, List.sum_cons, Function.update_self,
      List.map_congr_left fun r hr => by rw [hold r hr], ← hsum]
    simp only [addRun, freshRun]
    omega
  · intro r hr
    rw [← Option.some.inj hr]
    exact List.mem_cons_self
  · obtain ⟨l, hl, hmem⟩ := h.list
    have hnil : l = [] := by
      refine List.eq_nil_iff_forall_not_mem.mpr fun r hr => ?_
      obtain ⟨hrR, hrpos, -⟩ := (hmem r).mp hr
      have := hzero r hrR
      omega
    subst hnil
    refine ⟨[], hl, fun r => ⟨fun hr => absurd hr (by simp), ?_⟩⟩
    rintro ⟨hr, hrpos, hne⟩
    rcases List.mem_cons.mp hr with rfl | hr
    · exact absurd rfl hne
    · rw [hold r hr, hzero r hr] at hrpos
      exact absurd hrpos (by simp)

/-- The outcome of `releaseSlot`, without the wrap-arounds. -/
theorem releaseSlot_eq (h : BinInv nBytes H b R) (h64 : 64 ≤ nBytes) {r : ℕ} (hr : r ∈ R) (i : ℕ) :
    releaseSlot H b r i =
      if some r ≠ b.currentRun ∧ (H r).nFree = 0 then
        (Function.update H r { H r with
          bitmap := Function.update (H r).bitmap i false, nFree := 1, next := b.runs },
          { b with nFree := b.nFree + 1, runs := some r })
      else
        (Function.update H r { H r with
          bitmap := Function.update (H r).bitmap i false, nFree := (H r).nFree + 1 },
          { b with nFree := b.nFree + 1 }) := by
  have hslots := (h.nFree_le hr).trans (slotsPerRun_le h64)
  have hbin := h.nFree_lt h64
  have h16 : ((H r).nFree + 1) % 2 ^ 16 = (H r).nFree + 1 := by omega
  have h32 : (b.nFree + 1) % 2 ^ 32 = b.nFree + 1 := by omega
  simp only [releaseSlot, h16, h32, Nat.add_eq_right]
  split
  · rename_i hcond
    rw [hcond.2]
  · rfl

/-- Freeing an outstanding slot. -/
theorem releaseSlot_spec (h : BinInv nBytes H b R) (h64 : 64 ≤ nBytes) {r i : ℕ} (hr : r ∈ R)
    (hi : i < slotsPerRun nBytes) (hbit : (H r).bitmap i = true) :
    BinInv nBytes (releaseSlot H b r i).1 (releaseSlot H b r i).2 R := by
  have hcount := h.free r hr
  have hclear := clearBits_clear hi hbit
  rw [h.max r hr] at hcount
  obtain ⟨l, hl, hmem⟩ := h.list
  rw [h.releaseSlot_eq h64 hr]
  split
  · -- the run was full and is linked back in front of the list
    rename_i hcond
    have hrl : r ∉ l := fun hrl => by
      have := ((hmem r).mp hrl).2.1
      omega
    refine h.updateRun hr rfl rfl ?_ (by simp only; omega) rfl ⟨r :: l, ⟨rfl, ?_⟩, fun k => ?_⟩
    · simp only [h.max r hr]
      omega
    · simp only [Function.update_self]
      refine hl.congr fun k hk => ?_
      rw [Function.update_of_ne (ne_of_mem_of_not_mem hk hrl)]
    · by_cases hkr : k = r
      · subst hkr
        simpa [hr] using hcond.1.symm
      · rw [Function.update_of_ne hkr, ← hmem k]
        simp [hkr]
  · rename_i hcond
    refine h.updateRun hr rfl rfl ?_ (by simp only; omega) rfl ⟨l, ?_, fun k => ?_⟩
    · simp only [h.max r hr]
      omega
    · refine hl.congr fun k _ => ?_
      by_cases hkr : k = r
      · subst hkr; rw [Function.update_self]
      · rw [Function.update_of_ne hkr]
    · by_cases hkr : k = r
      · subst hkr
        rw [hmem k, Function.update_self]
        simp only [hr, true_and]
        constructor
        · exact fun hk => ⟨by omega, hk.2⟩
        · intro hk
          refine ⟨?_, hk.2⟩
          by_contra hzero
          exact hcond ⟨fun hc => hk.2 hc.symm, by omega⟩
      · rw [Function.update_of_ne hkr]
        exact hmem k

end BinInv

/-! ## Interleavings of the sections -/

/-- One bin with its runs and the outstanding slots `(run, index)`. -/
structure BinState where
  H : ℕ → ArenaRun
  bin : ArenaBin
  runs : List ℕ
  out : List (ℕ × ℕ)

/-- The end of `arena_allocate`: take a slot of the selected run. -/
def BinState.take (s : BinState) (nBytes r : ℕ) : BinState :=
  let t := takeSlot s.H s.bin r nBytes
  { s with
    H := t.2.1
    bin := t.2.2
    out := match t.1 with
      | none => s.out
      | some i => (r, i) :: s.out }

/-- One section under the mutex of bin `i` of arena `a`.  The new run of `grow` lies on a page that no
other run of the bin occupies, as `arena_create_run` chooses it. -/
inductive BinStep (a i nBytes : ℕ) (s : BinState) : BinState → Prop where
  | grow {k p : ℕ} (hempty : s.bin.nFree = 0) (hk : k ∉ s.runs) (hp : p < maxPages)
      (hfresh : ∀ r ∈ s.runs, (s.H r).nvmRun ≠ p * blockSize) :
      BinStep a i nBytes s (BinState.take
        { s with
          H := Function.update s.H k (freshRun a i nBytes (p * blockSize) (s.H k))
          bin := addRun s.bin k nBytes
          runs := k :: s.runs } nBytes k)
  | allocate {r : ℕ} {b : ArenaBin} (hfree : s.bin.nFree ≠ 0)
      (hsel : selectRun s.H s.bin = some (r, b)) :
      BinStep a i nBytes s (BinState.take { s with bin := b } nBytes r)
  | free {r j : ℕ} (hout : (r, j) ∈ s.out) :
      BinStep a i nBytes s
        { s with
          H := (releaseSlot s.H s.bin r j).1
          bin := (releaseSlot s.H s.bin r j).2
          out := s.out.erase (r, j) }

/-- The states of a bin after `arena_init` and any number of sections. -/
inductive BinReachable (a i nBytes : ℕ) : BinState → Prop where
  | init (H : ℕ → ArenaRun) : BinReachable a i nBytes ⟨H, ⟨none, 0, 0, none⟩, [], []⟩
  | step {s s' : BinState} (hs : BinReachable a i nBytes s) (hstep : BinStep a i nBytes s s') :
      BinReachable a i nBytes s'

/-- The invariant together with the outstanding slots: they are the set bits. -/
structure BinStateInv (nBytes : ℕ) (s : BinState) : Prop where
  inv : BinInv nBytes s.H s.bin s.runs
  nodup : s.out.Nodup
  out : ∀ r j, (r, j) ∈ s.out ↔ r ∈ s.runs ∧ j < slotsPerRun nBytes ∧ (s.H r).bitmap j = true

namespace BinStateInv

variable {nBytes : ℕ} {s : BinState}

/-- Taking a slot of the current run, which has one. -/
theorem take (h : BinStateInv nBytes s) (h64 : 64 ≤ nBytes) {r : ℕ}
    (hc : s.bin.currentRun = some r) (hpos : 0 < (s.H r).nFree) :
    BinStateInv nBytes (s.take nBytes r) := by
  obtain ⟨i, hi, hbit, htake, hinv⟩ := h.inv.takeSlot_spec h64 hc hpos
  have hr := h.inv.cur r hc
  have hnew : (r, i) ∉ s.out := by
    rw [h.out]
    simp [hbit]
  refine ⟨hinv, ?_, fun k j => ?_⟩
  · simp only [BinState.take, htake]
    exact List.nodup_cons.mpr ⟨hnew, h.nodup⟩
  · simp only [BinState.take, htake, List.mem_cons, Prod.mk.injEq, h.out]
    by_cases hkr : k = r
    · subst hkr
      by_cases hji : j = i
      · subst hji
        simp [hr, hi]
      · simp [hji]
    · simp [hkr]

/-- Every section keeps the invariant. -/
theorem step {a i : ℕ} {s' : BinState} (h : BinStateInv nBytes s) (h64 : 64 ≤ nBytes)
    (hsmall : nBytes ≤ sclassSmallMax) (hstep : BinStep a i nBytes s s') :
    BinStateInv nBytes s' := by
  cases hstep with
  | @grow k p hempty hk hp hfresh =>
    have hslots := slotsPerRun_pos h64 hsmall
    have hgrown : BinStateInv nBytes
        { s with
          H := Function.update s.H k (freshRun a i nBytes (p * blockSize) (s.H k))
          bin := addRun s.bin k nBytes
          runs := k :: s.runs } := by
      refine ⟨h.inv.addRun_spec h64 hempty hk hp hfresh, h.nodup, fun r j => ?_⟩
      rw [h.out]
      by_cases hrk : r = k
      · subst hrk
        simp [hk, freshRun]
      · simp [hrk]
    refine hgrown.take h64 rfl ?_
    simp only [Function.update_self]
    exact hslots
  | @allocate r b hfree hsel =>
    obtain ⟨r', b', hsel', -, hpos, hcur, hinv⟩ := h.inv.selectRun_spec (by omega)
    obtain ⟨rfl, rfl⟩ := Prod.mk.inj (Option.some.inj (hsel.symm.trans hsel'))
    have hselected : BinStateInv nBytes { s with bin := b } := ⟨hinv, h.nodup, h.out⟩
    exact hselected.take h64 hcur hpos
  | @free r j hout =>
    obtain ⟨hr, hj, hbit⟩ := (h.out r j).mp hout
    refine ⟨h.inv.releaseSlot_spec h64 hr hj hbit, h.nodup.erase _, fun k m => ?_⟩
    have hbits : ∀ k, ((releaseSlot s.H s.bin r j).1 k).bitmap =
        if k = r then Function.update (s.H r).bitmap j false else (s.H k).bitmap := by
      intro k
      rw [h.inv.releaseSlot_eq h64 hr]
      split <;> by_cases hkr : k = r <;> simp [hkr]
    rw [h.nodup.mem_erase_iff, h.out, hbits]
    by_cases hkr : k = r
    · subst hkr
      by_cases hmj : m = j
      · subst hmj; simp
      · simp [hmj]
    · simp [hkr]

/-- The invariant of every interleaving. -/
theorem of_reachable {a i : ℕ} (h64 : 64 ≤ nBytes) (hsmall : nBytes ≤ sclassSmallMax)
    (hs : BinReachable a i nBytes s) : BinStateInv nBytes s := by
  induction hs with
  | init H =>
    refine ⟨⟨List.nodup_nil, List.nodup_nil, ?_, ?_, ?_, rfl, ?_, [], rfl, ?_⟩, List.nodup_nil, ?_⟩ <;>
      simp
  | step _ hstep ih => exact ih.step h64 hsmall hstep

end BinStateInv

/-- **The bin invariant of every interleaving.**  In every state of a bin that the sections of
`arena_allocate` and `arena_free` can reach from `arena_init`, the counters are exact and the list holds
exactly the runs with free slots other than the current one.  So a bin that counts a free slot offers a
run with a clear bit, and the two decrements do not wrap. -/
theorem bin_invariant_of_sections {a i : ℕ} (hi : i < 31) {s : BinState}
    (hs : BinReachable a i (64 * (i + 1)) s) :
    (∀ r ∈ s.runs, (s.H r).nFree = clearBits (s.H r).bitmap (s.H r).nMax) ∧
    s.bin.nFree = (s.runs.map fun r => (s.H r).nFree).sum ∧
    (∃ l, Linked (fun r => (s.H r).next) s.bin.runs l ∧ l.Nodup ∧
      ∀ r, r ∈ l ↔ r ∈ s.runs ∧ 0 < (s.H r).nFree ∧ s.bin.currentRun ≠ some r) ∧
    (0 < s.bin.nFree → ∃ r b j, selectRun s.H s.bin = some (r, b) ∧ r ∈ s.runs ∧
      (takeSlot s.H b r (64 * (i + 1))).1 = some j ∧ j < (s.H r).nMax ∧
      (s.H r).bitmap j = false ∧
      ((takeSlot s.H b r (64 * (i + 1))).2.1 r).nFree + 1 = (s.H r).nFree ∧
      (takeSlot s.H b r (64 * (i + 1))).2.2.nFree + 1 = s.bin.nFree) := by
  have h64 : 64 ≤ 64 * (i + 1) := by omega
  have hsmall : 64 * (i + 1) ≤ sclassSmallMax := by
    simp only [sclassSmallMax, blockSize]
    omega
  obtain ⟨hinv, -, -⟩ := BinStateInv.of_reachable h64 hsmall hs
  obtain ⟨l, hl, hmem⟩ := hinv.list
  refine ⟨hinv.free, hinv.sum, ⟨l, hl, hl.nodup, hmem⟩, fun hpos => ?_⟩
  obtain ⟨r, b, hsel, hr, hrpos, hcur, hinv'⟩ := hinv.selectRun_spec hpos
  obtain ⟨j, hj, hbit, htake, -⟩ := hinv'.takeSlot_spec h64 hcur hrpos
  have hbin : b.nFree = s.bin.nFree := hinv'.sum.trans hinv.sum.symm
  refine ⟨r, b, j, hsel, hr, ?_, ?_, hbit, ?_, ?_⟩
  · rw [htake]
  · rwa [hinv.max r hr]
  · simp only [htake, Function.update_self]
    exact Nat.sub_add_cancel hrpos
  · rw [htake, ← hbin]
    exact Nat.sub_add_cancel (hbin ▸ hpos)

/-- Three allocations from the bin of two slots a run, and a free in the first run: the second run is the
current one, and the first is on the list. -/
theorem bin_invariant_two_runs :
    ∃ s : BinState, BinReachable 0 30 (64 * (30 + 1)) s ∧ s.runs = [1, 0] ∧ s.bin.currentRun = some 1 ∧
      s.bin.runs = some 0 ∧ s.bin.nFree = 2 ∧ s.bin.nFree = (s.runs.map fun r => (s.H r).nFree).sum := by
  have h₁ : BinReachable 0 30 (64 * (30 + 1)) _ :=
    (BinReachable.init fun _ => ⟨0, (0, 0), 0, 0, 0, fun _ => false, none⟩).step
      (BinStep.grow (k := 0) (p := 1) rfl (by simp) (by decide) (by simp))
  have h₂ := h₁.step (BinStep.allocate (r := 0) (by decide) rfl)
  have h₃ := h₂.step (BinStep.grow (k := 1) (p := 2) rfl (by decide) (by decide) (by decide))
  have h₄ := h₃.step (BinStep.free (r := 0) (j := 0) (by decide))
  exact ⟨_, h₄, rfl, by decide, by decide, by decide, (bin_invariant_of_sections (by decide) h₄).2.1⟩

end NvmMalloc
