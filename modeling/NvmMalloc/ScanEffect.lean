import NvmMalloc.ScanSpec

/-!
# What the recovery thread leaves

Reference: `src/nvm_malloc.c` (`nvm_recovery_thread`).

The thread deals with the tiles behind the chunk headers in the order of their pages.  `Scanned` is what
it has done to the world when all pages before its position are dealt with: one node for every free
page run, one VHeader for every run whose version is old, and the two fields of the run headers that
point to it.
-/

namespace NvmMalloc

open Memory CrashM

/-! ## Pages behind the thread -/

/-- The pages before `pos`, chunk headers apart, on which a tile starts. -/
def pagesBelow (L : Layout) (pos : ℕ) : List ℕ :=
  (List.range pos).filter fun p => p % 1024 ≠ 0 ∧ (L p).isSome

section

variable {L : Layout} {n pos pos' p : ℕ} {t : Tile}

theorem mem_pagesBelow : p ∈ pagesBelow L pos ↔ p < pos ∧ p % 1024 ≠ 0 ∧ (L p).isSome := by
  unfold pagesBelow
  rw [List.mem_filter, List.mem_range, decide_eq_true_eq]

theorem pagesBelow_succ : pagesBelow L (pos + 1) =
    pagesBelow L pos ++ if pos % 1024 ≠ 0 ∧ (L pos).isSome then [pos] else [] := by
  unfold pagesBelow
  rw [List.range_succ, List.filter_append]
  by_cases hpos : pos % 1024 ≠ 0 ∧ (L pos).isSome
  · rw [if_pos hpos, List.filter_cons, if_pos (decide_eq_true hpos), List.filter_nil]
  · rw [if_neg hpos, List.filter_cons, if_neg (by rwa [decide_eq_true_eq]), List.filter_nil]

/-- Chunk headers and the inside of tiles add no page. -/
theorem pagesBelow_skip (hle : pos ≤ pos')
    (hnone : ∀ p t, L p = some t → pos ≤ p → p < pos' → p % 1024 = 0) :
    pagesBelow L pos' = pagesBelow L pos := by
  induction pos', hle using Nat.le_induction with
  | base => rfl
  | succ k hk ih =>
    have hno : ¬ (k % 1024 ≠ 0 ∧ (L k).isSome) := by
      rintro ⟨hmod, hsome⟩
      obtain ⟨t, ht⟩ := Option.isSome_iff_exists.mp hsome
      exact hmod (hnone k t ht hk (Nat.lt_succ_self k))
    rw [pagesBelow_succ, if_neg hno, List.append_nil]
    exact ih fun p t hp hlo hhi => hnone p t hp hlo (by omega)

/-- A tile adds its first page. -/
theorem pagesBelow_next (hok : L.Ok n) (hp : L p = some t) (hmod : p % 1024 ≠ 0) :
    pagesBelow L (p + t.len) = pagesBelow L p ++ [p] := by
  have hpos := hok.len_pos hp
  have hin : p % 1024 ≠ 0 ∧ (L p).isSome := ⟨hmod, by rw [hp]; rfl⟩
  have hskip : pagesBelow L (p + t.len) = pagesBelow L (p + 1) := by
    refine pagesBelow_skip (by omega) fun q u hq hlo hhi => ?_
    rw [hok.none_inside hp (by omega) hhi] at hq
    exact absurd hq (by simp)
  rw [hskip, pagesBelow_succ, if_pos hin]

theorem nodup_pagesBelow : (pagesBelow L pos).Nodup := List.nodup_range.filter _

end

/-! ## The world behind the thread -/

/-- The runs before `pos` for which the thread builds a VHeader, in the order in which it does. -/
def newRuns (L : Layout) (w₀ : World) (pos : ℕ) : List ℕ :=
  (pagesBelow L pos).filter fun p => NeedsRun w₀.nvm.mem w₀.currentVersion p

/-- What the thread has made of `w₀` when the pages before `pos` are dealt with. -/
structure Scanned (L : Layout) (pos : ℕ) (w₀ w : World) : Prop where
  mem : ∀ x, (∀ p ∈ newRuns L w₀ pos, ¬ ScanByte p x) → w.nvm.mem x = w₀.nvm.mem x
  nvm : w.nvm = { w₀.nvm with mem := w.nvm.mem }
  nvmStart : w.nvmStart = w₀.nvmStart
  currentVersion : w.currentVersion = w₀.currentVersion
  ot : w.ot = w₀.ot
  freeChunks : w.freeChunks = w₀.freeChunks
  bin : w.bin = w₀.bin
  pages : ∀ a, (w.arenas a).freePageruns.toList.Perm
    (((pagesBelow L pos).flatMap (scannedNodes w₀.nvm.mem)).filter (fun x => x.arena = a) ++
      (w₀.arenas a).freePageruns.toList)
  old : ∀ k < w₀.nVheaders, w.vheaders k = w₀.vheaders k
  count : w.nVheaders = w₀.nVheaders + (newRuns L w₀ pos).length
  new : ∀ i p, (newRuns L w₀ pos)[i]? = some p →
    Describes w.nvm.mem p (w.vheaders (w₀.nVheaders + i)) ∧
      field w.nvm.mem (4096 * p) vdataF = (w₀.nVheaders + i) % 2 ^ 64 ∧
      field w.nvm.mem (4096 * p) versionF = w₀.currentVersion % 2 ^ 32

section

variable {L : Layout} {w₀ w w' : World} {nChunks pos p : ℕ} {t : Tile}

theorem mem_newRuns : p ∈ newRuns L w₀ pos ↔
    (p < pos ∧ p % 1024 ≠ 0 ∧ (L p).isSome) ∧ NeedsRun w₀.nvm.mem w₀.currentVersion p := by
  unfold newRuns
  rw [List.mem_filter, mem_pagesBelow, decide_eq_true_eq]

namespace Scanned

theorem start (L : Layout) (w : World) : Scanned L 0 w w := by
  refine ⟨fun _ _ => rfl, rfl, rfl, rfl, rfl, rfl, rfl, fun a => List.Perm.refl _, fun _ _ => rfl, rfl,
    fun i p hp => ?_⟩
  exact absurd hp (by simp [newRuns, pagesBelow])

/-- The thread has not touched the headers before it. -/
theorem line (h : Scanned L pos w₀ w) (hge : pos ≤ p) :
    EqOn w₀.nvm.mem w.nvm.mem (4096 * p) 64 := by
  intro x hx hx'
  refine h.mem x fun q hq hbyte => ?_
  have hlt := (mem_newRuns.mp hq).1.1
  unfold ScanByte at hbyte
  omega

/-- A step over a chunk header or a huge region. -/
theorem skip (h : Scanned L pos w₀ w) {pos' : ℕ} (heq : pagesBelow L pos' = pagesBelow L pos) :
    Scanned L pos' w₀ w := by
  have hruns : newRuns L w₀ pos' = newRuns L w₀ pos := by rw [newRuns, newRuns, heq]
  refine ⟨?_, h.nvm, h.nvmStart, h.currentVersion, h.ot, h.freeChunks, h.bin, ?_, h.old, ?_, ?_⟩
  · rw [hruns]
    exact h.mem
  · rw [heq]
    exact h.pages
  · rw [hruns]
    exact h.count
  · rw [hruns]
    exact h.new

/-- The sizes of runs stay as they are. -/
theorem nBytes_eq (h : Scanned L pos w₀ w) (q : ℕ) :
    field w.nvm.mem (4096 * q) nBytesF = field w₀.nvm.mem (4096 * q) nBytesF := by
  refine field_congr fun x hx hx' => h.mem x fun p _ hbyte => ?_
  simp only [nBytesF] at hx hx'
  unfold ScanByte at hbyte
  omega

/-- **One page**: the thread deals with the tile at its position. -/
theorem page (h : Scanned L p w₀ w) (hok : ScanOk L nChunks w₀) (hunstuck : ∀ q n, L q ≠ some (.stuck n))
    (hp : L p = some t) (hmod : p % 1024 ≠ 0) (hscan : Scans w w' p) :
    Scanned L (p + t.len) w₀ w' := by
  have hline := h.line (le_refl p)
  have hneeds : NeedsRun w.nvm.mem w.currentVersion p ↔ NeedsRun w₀.nvm.mem w₀.currentVersion p := by
    unfold NeedsRun usageAt
    rw [h.currentVersion, field_eqOn hline (by decide), field_eqOn hline (by decide)]
  have hnodes : scannedNodes w.nvm.mem p = scannedNodes w₀.nvm.mem p := by
    unfold scannedNodes blockNode usageAt
    rw [field_eqOn hline (by decide), field_eqOn hline (by decide), field_eqOn hline (by decide)]
  have hpages := pagesBelow_next hok.ok hp hmod
  have hruns : newRuns L w₀ (p + t.len) =
      newRuns L w₀ p ++ if NeedsRun w₀.nvm.mem w₀.currentVersion p then [p] else [] := by
    unfold newRuns
    rw [hpages, List.filter_append, List.filter_cons, List.filter_nil]
    simp only [decide_eq_true_eq]
  refine ⟨fun x hx => ?_, ?_, hscan.nvmStart.trans h.nvmStart,
    hscan.currentVersion.trans h.currentVersion, hscan.ot.trans h.ot,
    hscan.freeChunks.trans h.freeChunks, hscan.bin.trans h.bin, fun a => ?_, fun k hk => ?_, ?_,
    fun i q hq => ?_⟩
  · rw [hruns] at hx
    rw [hscan.mem x, h.mem x fun q hq => hx q (List.mem_append_left _ hq)]
    rintro ⟨hrun, hbyte⟩
    rw [hneeds] at hrun
    refine hx p (List.mem_append_right _ ?_) hbyte
    rw [if_pos hrun]
    exact List.mem_singleton_self p
  · rw [hscan.nvm, h.nvm]
  · rw [hpages, List.flatMap_append, List.flatMap_cons, List.flatMap_nil, List.append_nil,
      List.filter_append]
    refine (hscan.pages a).trans ?_
    rw [hnodes]
    refine ((h.pages a).append_left _).trans ?_
    rw [← List.append_assoc]
    exact List.perm_append_comm.append_right _
  · rw [hscan.old k (by have := h.count; omega), h.old k hk]
  · rw [hscan.count, h.count, hruns, List.length_append]
    simp only [hneeds]
    split <;> rfl
  · rw [hruns] at hq
    by_cases hi : i < (newRuns L w₀ p).length
    · -- a run that was entered before
      rw [List.getElem?_append_left hi] at hq
      obtain ⟨hdesc, hvdata, hversion⟩ := h.new i q hq
      obtain ⟨⟨hlt, hqmod, hsome⟩, hrun⟩ := mem_newRuns.mp (List.mem_of_getElem? hq)
      obtain ⟨u, hu⟩ := Option.isSome_iff_exists.mp hsome
      have heq : EqOn w.nvm.mem w'.nvm.mem (4096 * q) 64 :=
        hscan.eqOn_other hok.ok hp hu (by omega)
      have hslots : slotsPerRun (field w.nvm.mem (4096 * q) nBytesF) ≤ 63 := by
        rw [h.nBytes_eq]
        rcases hok.page_cases hu hqmod with ⟨-, -, -, hhdr⟩ | ⟨n, rfl, -⟩
        · exact slotsPerRun_lt_of_runSize (hhdr hrun.1).1
        · exact absurd hu (hunstuck q n)
      rw [hscan.old _ (by have := h.count; omega), field_eqOn heq (by decide),
        field_eqOn heq (by decide)]
      exact ⟨hdesc.congr (field_eqOn heq (by decide)) (field_eqOn heq (by decide))
        (fun j hj => bitmapBit_eqOn heq hj) hslots, hvdata, hversion⟩
    · rw [List.getElem?_append_right (by omega)] at hq
      by_cases hrun : NeedsRun w₀.nvm.mem w₀.currentVersion p
      · rw [if_pos hrun] at hq
        obtain ⟨hzero, rfl⟩ : i - (newRuns L w₀ p).length = 0 ∧ p = q := by
          rcases hk : i - (newRuns L w₀ p).length with _ | k
          · rw [hk] at hq
            exact ⟨rfl, Option.some.inj hq⟩
          · rw [hk] at hq
            exact absurd hq (by simp)
        have hcount : w₀.nVheaders + i = w.nVheaders := by
          rw [h.count]
          omega
        rw [hcount, ← h.currentVersion]
        exact hscan.new (hneeds.mpr hrun)
      · rw [if_neg hrun] at hq
        exact absurd hq (by simp)

end Scanned

end

/-! ## Whole runs of the thread -/

section

variable {L : Layout} {w₀ w : World} {nChunks fuel : ℕ} {pc : ScanPc}

/-- **The thread never gets past a stuck tile.** -/
theorem ScanOk.pos_le_stuck (h : ScanOk L nChunks w₀) {y : ScanPc × World}
    (hreach : ScanReaches nChunks (.chunk 0, w₀) y) {p n : ℕ} (hp : L p = some (.stuck n)) :
    y.1.pos nChunks ≤ p := by
  induction hreach with
  | refl => exact Nat.zero_le _
  | @tail y z hprev hstep ih =>
    obtain ⟨hat, hok⟩ := h.reaches (scanAt_start h.ok) hprev
    obtain ⟨-, hmove⟩ := hok.step hat hstep.1 hstep.2
    cases hmove with
    | skip _ _ hnone _ =>
      by_contra hlt
      exact (hnone p _ hp ih (by omega)).2 n rfl
    | @page q t hq hunstuck hpos _ _ hnext _ =>
      rw [hpos] at ih
      rw [hnext]
      by_cases hqp : q = p
      · subst hqp
        exact absurd (Option.some.inj (hq.symm.trans hp)) (hunstuck n)
      · have hd := h.ok.disjoint hq hp hqp
        have hlen := h.ok.len_pos hp
        omega
    | stuck _ _ hsame =>
      rw [hsame]
      exact ih

/-- A thread that ends has met no stuck tile. -/
theorem ScanOk.unstuck (h : ScanOk L nChunks w₀)
    (hreach : ScanReaches nChunks (.chunk 0, w₀) (.done, w)) : ∀ p n, L p ≠ some (.stuck n) := by
  intro p n hp
  have hle : 1024 * nChunks ≤ p := h.pos_le_stuck hreach hp
  have hend := h.ok.add_len_le hp
  have hpos := h.ok.len_pos hp
  omega

/-- **What the thread has done at every loop head.** -/
theorem ScanOk.scanned (h : ScanOk L nChunks w₀) (hunstuck : ∀ p n, L p ≠ some (.stuck n))
    {y : ScanPc × World} (hreach : ScanReaches nChunks (.chunk 0, w₀) y) :
    Scanned L (y.1.pos nChunks) w₀ y.2 := by
  induction hreach with
  | refl => exact Scanned.start L w₀
  | @tail y z hprev hstep ih =>
    obtain ⟨hat, hok⟩ := h.reaches (scanAt_start h.ok) hprev
    obtain ⟨-, hmove⟩ := hok.step hat hstep.1 hstep.2
    cases hmove with
    | skip hw hle hnone _ =>
      rw [hw]
      exact ih.skip (pagesBelow_skip hle fun p t hp hlo hhi => (hnone p t hp hlo hhi).1)
    | page hq _ hpos hmod hscan hnext _ =>
      rw [hpos] at ih
      rw [hnext]
      exact ih.page h hunstuck hq hmod hscan
    | stuck hq _ _ => exact absurd hq (hunstuck _ _)

/-- **What the thread leaves when it ends.** -/
theorem ScanOk.thread (h : ScanOk L nChunks w₀)
    (hrun : (nvmRecoveryThread fuel nChunks w₀).2 = .ok ((), w)) :
    (∀ p n, L p ≠ some (.stuck n)) ∧ Scanned L (1024 * nChunks) w₀ w := by
  have hreach := scanChunks_run hrun
  have hunstuck := h.unstuck hreach
  exact ⟨hunstuck, h.scanned hunstuck hreach⟩

end

end NvmMalloc
