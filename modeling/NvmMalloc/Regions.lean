import NvmMalloc.Invariant

/-!
# Geometry of the outstanding regions

An outstanding region lies in the body of its tile: behind the header of a page run or a huge region, or
in a slot of a run.  So what the client may write never meets a header, and two regions never meet.
-/

namespace NvmMalloc

open Memory

/-- A slot ends inside its page. -/
theorem slot_end_le {e i : ℕ} (hi : i < slotsPerRun e) : e * i + e ≤ 4032 := by
  have hi' : i + 1 ≤ 4032 / e := hi
  have hmul := Nat.mul_le_of_le_div e (i + 1) 4032 hi'
  rw [Nat.mul_comm, Nat.mul_succ] at hmul
  exact hmul

/-- Large requests are rounded up to whole pages. -/
theorem roundUp_blockSize (n : ℕ) : roundUp n blockSize = 4096 * ((n + 4095) / 4096) := by
  unfold roundUp
  split <;> simp only [blockSize] at * <;> omega

/-- The client's tiles: runs, and page runs and huge regions it owns. -/
def Tile.Live : Tile → Prop
  | .run _ => True
  | .block _ (.user _) => True
  | .huge _ (.user _) => True
  | _ => False

section

variable {L : Layout} {m : Mem} {H : ℕ → ArenaRun} {w : World} {live : List Region} {r r' : Region}

/-- A slot lies on the page of its run. -/
theorem slot_page {p e i : ℕ} (he : 64 ≤ e) (hi : i < slotsPerRun e) :
    (4096 * p + 64 + e * i) / 4096 = p := by
  have := slot_end_le hi
  omega

theorem le_elemSize {k : ℕ} (hsize : 1 ≤ r.nBytes) (helem : (H k).elemSize = roundUp r.nBytes 64) :
    64 ≤ (H k).elemSize := by
  rw [helem, roundUp_64]
  omega

/-- A region in a run is a slot, and any other region starts behind the header of its tile. -/
theorem Placed.cases_tile (h : Placed L m H r) (hsize : 1 ≤ r.nBytes) :
    (∃ p k i, L p = some (.run k) ∧ r.ptr / 4096 = p ∧ i < slotsPerRun (H k).elemSize ∧
      r.ptr = 4096 * p + 64 + (H k).elemSize * i ∧ grantedLen r.nBytes = (H k).elemSize) ∨
    ∃ p t, L p = some t ∧ r.ptr / 4096 = p ∧ (∀ k, t ≠ .run k) ∧ t.Live ∧ r.ptr = 4096 * p + 64 := by
  cases h with
  | @small hs p k i htile helem hi hptr hbit hnvm =>
    refine Or.inl ⟨p, k, i, htile, ?_, hi, hptr, ?_⟩
    · rw [hptr]
      exact slot_page (le_elemSize hsize helem) hi
    · rw [grantedLen, if_pos hs, helem]
  | @large hlo hhi p htile hptr =>
    exact Or.inr ⟨p, _, htile, by omega, by simp, trivial, hptr⟩
  | @huge hlo p htile hptr =>
    exact Or.inr ⟨p, _, htile, by omega, by simp, trivial, hptr⟩

/-- A request of at most `MAX_NVM_SPACE` bytes does not wrap around. -/
theorem chunksFor_eq {n : ℕ} (h : n ≤ maxNvmSpace) : chunksFor n = (n + 64) / 4194304 + 1 := by
  simp only [chunksFor, maxNvmSpace, headerSize, chunkSize] at h ⊢
  omega

/-- A region lies in the body of one of the client's tiles. -/
theorem Placed.span (h : Placed L m H r) (hsize : 1 ≤ r.nBytes ∧ r.nBytes ≤ maxNvmSpace) :
    ∃ p t, L p = some t ∧ t.Live ∧ r.ptr / 4096 = p ∧ 4096 * p + 64 ≤ r.ptr ∧
      r.ptr + grantedLen r.nBytes ≤ 4096 * (p + t.len) := by
  cases h with
  | @small hs p k i htile helem hi hptr hbit hnvm =>
    have hend := slot_end_le hi
    have hpage : r.ptr / 4096 = p := by
      rw [hptr]
      exact slot_page (le_elemSize hsize.1 helem) hi
    refine ⟨p, _, htile, trivial, hpage, by omega, ?_⟩
    rw [grantedLen, if_pos hs, ← helem, Tile.len_run]
    omega
  | @large hlo hhi p htile hptr =>
    refine ⟨p, _, htile, trivial, by omega, by omega, ?_⟩
    rw [grantedLen, if_neg (by omega), if_pos hhi, Tile.len_block, roundUp_blockSize]
    simp only [blockSize, headerSize]
    omega
  | @huge hlo p htile hptr =>
    refine ⟨p, _, htile, trivial, by omega, by omega, ?_⟩
    have hle : sclassSmallMax ≤ sclassLargeMax := by decide
    rw [grantedLen, if_neg (by omega), if_neg (by omega), Tile.len_huge, chunksFor_eq hsize.2]
    simp only [chunkSize, headerSize]
    lia

/-- Whether a region is kept depends on the header of its page only. -/
theorem KeptRegion.of_page {L' : Layout} {m' : Mem} (h : KeptRegion L m r) (hsize : 1 ≤ r.nBytes)
    (htile : L' (r.ptr / 4096) = L (r.ptr / 4096))
    (heq : EqOn m m' (4096 * (r.ptr / 4096)) 64) : KeptRegion L' m' r := by
  cases h with
  | @small hs p k i hp helem hi hptr hbit hfree =>
    have hpage : r.ptr / 4096 = p := by
      rw [hptr]
      refine slot_page ?_ hi
      rw [roundUp_64]
      omega
    have hsmall : i < 64 := by
      have := slotsPerRun_roundUp_le r.nBytes
      omega
    rw [hpage] at htile heq
    refine .small hs (htile.trans hp) ?_ hi hptr ?_ ?_
    · rwa [field_eqOn heq (by decide)]
    · rwa [bitmapBit_eqOn heq hsmall]
    · rwa [field_eqOn heq (by decide), field_eqOn heq (by decide)]
  | @large hlo hhi p o hp hptr hstate =>
    have hpage : r.ptr / 4096 = p := by omega
    rw [hpage] at htile heq
    exact .large hlo hhi (htile.trans hp) hptr (by rwa [field_eqOn heq (by decide)])
  | @huge hlo p o hp hptr hstate =>
    have hpage : r.ptr / 4096 = p := by omega
    rw [hpage] at htile heq
    exact .huge hlo (htile.trans hp) hptr (by rwa [field_eqOn heq (by decide)])

/-- Granted memory lies in the body of a tile. -/
theorem LiveInv.body (h : LiveInv L m H live) {a n : ℕ} (hg : Granted live a n) : L.Body a n := by
  obtain ⟨r, hr, hlo, hhi⟩ := hg
  obtain ⟨p, t, hp, hlive, -, hptr, hend⟩ := (h.placed r hr).span (h.size r hr)
  refine ⟨p, t, hp, ?_, by omega, by omega⟩
  rintro rfl
  exact hlive

/-- No region lies on a page that the client does not own. -/
theorem LiveInv.ptr_ne (h : LiveInv L m H live) {p : ℕ} {t : Tile} (hp : L p = some t)
    (ht : ¬ t.Live) : ∀ r ∈ live, r.ptr / 4096 ≠ p := by
  intro r hr heq
  obtain ⟨q, u, hq, hlive, hpage, -⟩ := (h.placed r hr).span (h.size r hr)
  rw [← hpage, heq, hp] at hq
  exact ht (Option.some.inj hq ▸ hlive)

/-- A page run or huge region of the client belongs to one region only. -/
theorem LiveInv.eq_of_ptr (h : LiveInv L m H live) (hr : r ∈ live) (hr' : r' ∈ live)
    (hptr : r.ptr = r'.ptr) : r = r' :=
  List.inj_on_of_nodup_map h.nodup hr hr' hptr

/-- The page of a slot. -/
theorem HeapInv.page_of_slot {w : World} (h : HeapInv L w live) {p k i ptr : ℕ}
    (hp : L p = some (.run k)) (hi : i < slotsPerRun (w.vheaders k).elemSize)
    (hptr : ptr = 4096 * p + 64 + (w.vheaders k).elemSize * i) : ptr / 4096 = p := by
  obtain ⟨c, -, helem⟩ := h.elemSize_runSize hp
  rw [hptr]
  exact slot_page (by omega) hi

/-- A region on the page of a run is one of its slots. -/
theorem LiveInv.of_run_page (h : LiveInv L m H live) {p k : ℕ} (hr : r ∈ live)
    (hp : L p = some (.run k)) (hpage : r.ptr / 4096 = p) :
    r.nBytes ≤ sclassSmallMax ∧ (H k).elemSize = roundUp r.nBytes 64 ∧
      ∃ i < slotsPerRun (H k).elemSize, r.ptr = 4096 * p + 64 + (H k).elemSize * i ∧
        (H k).bitmap i = true ∧ bitmapBit m (4096 * p) i = r.active := by
  cases h.placed r hr with
  | @small hsize q j i htile helem hi hptr hbit hnvm =>
    have hq : r.ptr / 4096 = q := by
      rw [hptr]
      exact slot_page (le_elemSize (h.size r hr).1 helem) hi
    obtain rfl : p = q := hpage.symm.trans hq
    rw [hp, Option.some.injEq, Tile.run.injEq] at htile
    subst htile
    exact ⟨hsize, helem, i, hi, hptr, hbit, hnvm⟩
  | @large _ _ q htile hptr =>
    obtain rfl : p = q := by omega
    rw [hp] at htile
    exact absurd htile (by simp)
  | @huge _ q htile hptr =>
    obtain rfl : p = q := by omega
    rw [hp] at htile
    exact absurd htile (by simp)

/-- An outstanding region that is slot `i` of a run. -/
theorem HeapInv.region_of_slot {w : World} (h : HeapInv L w live) {p k i : ℕ} (hr : r ∈ live)
    (hp : L p = some (.run k)) (hi : i < slotsPerRun (w.vheaders k).elemSize)
    (hptr : r.ptr = 4096 * p + 64 + (w.vheaders k).elemSize * i) :
    r.nBytes ≤ sclassSmallMax ∧ (w.vheaders k).elemSize = roundUp r.nBytes 64 ∧
      (w.vheaders k).bitmap i = true ∧ bitmapBit w.nvm.mem (4096 * p) i = r.active := by
  obtain ⟨c, -, helem⟩ := h.elemSize_runSize hp
  obtain ⟨hs, he, j, -, hptr', hbit, hnvm⟩ := h.live.of_run_page hr hp (h.page_of_slot hp hi hptr)
  have hmul : (w.vheaders k).elemSize * i = (w.vheaders k).elemSize * j := by omega
  obtain rfl := Nat.eq_of_mul_eq_mul_left (by omega) hmul
  exact ⟨hs, he, hbit, hnvm⟩

/-- Two outstanding regions do not overlap. -/
theorem LiveInv.disjoint {c : ℕ} (h : LiveInv L m H live) (hok : L.Ok c) (hr : r ∈ live)
    (hr' : r' ∈ live) (hne : r ≠ r') :
    r.ptr + grantedLen r.nBytes ≤ r'.ptr ∨ r'.ptr + grantedLen r'.nBytes ≤ r.ptr := by
  have hptr : r.ptr ≠ r'.ptr := fun heq => hne (h.eq_of_ptr hr hr' heq)
  obtain ⟨p, t, hp, hlive, hpage, hlo, hhi⟩ := (h.placed r hr).span (h.size r hr)
  obtain ⟨q, u, hq, hlive', hpage', hlo', hhi'⟩ := (h.placed r' hr').span (h.size r' hr')
  by_cases hpq : p = q
  · -- two regions of one tile are slots of one run
    subst hpq
    rcases (h.placed r hr).cases_tile (h.size r hr).1 with
      ⟨p₁, k, i, htile, hpage₁, hi, hptr₁, hlen⟩ | ⟨p₁, t₁, htile, hpage₁, hrun, -, hptr₁⟩ <;>
    rcases (h.placed r' hr').cases_tile (h.size r' hr').1 with
      ⟨p₂, k', j, htile', hpage₂, hj, hptr₂, hlen'⟩ | ⟨p₂, t₂, htile', hpage₂, hrun', -, hptr₂⟩ <;>
    rw [show p₁ = p by omega] at htile hptr₁ <;> rw [show p₂ = p by omega] at htile' hptr₂
    · have hk : k = k' := by simpa using htile.symm.trans htile'
      subst hk
      have hij : i ≠ j := by
        rintro rfl
        exact hptr (hptr₁.trans hptr₂.symm)
      rw [hlen, hlen', hptr₁, hptr₂]
      rcases Nat.lt_or_gt_of_ne hij with hlt | hgt
      · have hmul := Nat.mul_le_mul_left (H k).elemSize (Nat.succ_le_of_lt hlt)
        rw [Nat.mul_succ] at hmul
        omega
      · have hmul := Nat.mul_le_mul_left (H k).elemSize (Nat.succ_le_of_lt hgt)
        rw [Nat.mul_succ] at hmul
        omega
    · exact absurd (Option.some.inj (htile'.symm.trans htile)) (hrun' k)
    · exact absurd (Option.some.inj (htile.symm.trans htile')) (hrun k')
    · exact absurd (hptr₁.trans hptr₂.symm) hptr
  · have hd := hok.disjoint hp hq hpq
    omega

end

end NvmMalloc
