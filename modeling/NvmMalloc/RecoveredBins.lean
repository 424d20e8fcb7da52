import NvmMalloc.RecoveredHeap

/-!
# The bins after recovery

Reference: `src/nvm_malloc.c` (`nvm_initialize_recovered`, `nvm_recovery_thread`), `src/arena.c`
(`arena_create_run_header`).

Both passes build VHeaders.  The log loop pushes the one it builds onto the list of its bin, also if it
is full, and the recovery thread links none.  Neither counts the free slots in the bin.  So the bins
are in order only if no log entry names a run and no run has a free slot.
-/

namespace NvmMalloc

open Memory CrashM

/-- The pages with a run header that the walk meets. -/
def runHeaders (nvm : Nvm) : List ℕ := (headerPages nvm).filter fun p => usageAt nvm.mem p = usageRun

/-- The VHeaders of a bin. -/
def binVheaders (w : World) (ab : ℕ × ℕ) : List ℕ :=
  (List.range w.nVheaders).filter fun k => (w.vheaders k).bin = ab

/-- Every run has one VHeader, and the counters and lists of the bins agree with the VHeaders. -/
structure BinsRecovered (w : World) : Prop where
  vheader : ∀ p ∈ runHeaders w.nvm, ∃ k < w.nVheaders, field w.nvm.mem (4096 * p) vdataF = k ∧
    ∀ j < w.nVheaders, (w.vheaders j).nvmRun = 4096 * p ↔ j = k
  free : ∀ k < w.nVheaders, (w.vheaders k).nFree = clearBits (w.vheaders k).bitmap (w.vheaders k).nMax
  sum : ∀ ab, (w.bin ab).nFree = ((binVheaders w ab).map fun k => (w.vheaders k).nFree).sum
  list : ∀ ab, ∃ l, Linked (fun k => (w.vheaders k).next) (w.bin ab).runs l ∧
    ∀ k, k ∈ l ↔ k ∈ binVheaders w ab ∧ 0 < (w.vheaders k).nFree

/-- No log entry names the run on page `p`, and it is full. -/
def FullUnnamed (img : Nvm) (p : ℕ) : Prop :=
  ¬ NamedBefore img maxLogEntries p ∧
    clearBits (bitmapBit img.mem (4096 * p)) (slotsPerRun (field img.mem (4096 * p) nBytesF)) = 0

instance (img : Nvm) (p : ℕ) : Decidable (FullUnnamed img p) := inferInstanceAs (Decidable (_ ∧ _))

section

variable {P : Process} {L : Layout} {p₀ p k : ℕ} {img : Nvm} {w₀ w : World} {ab : ℕ × ℕ}

theorem mem_binVheaders : k ∈ binVheaders w ab ↔ k < w.nVheaders ∧ (w.vheaders k).bin = ab := by
  unfold binVheaders
  rw [List.mem_filter, List.mem_range, decide_eq_true_eq]

theorem Aligned.mem_runHeaders {nvm : Nvm} (h : Aligned L nvm.mem nvm.nextChunk) :
    p ∈ runHeaders nvm ↔ ∃ k, L p = some (.run k) := by
  unfold runHeaders
  rw [List.mem_filter, h.mem_headerPages, decide_eq_true_eq]
  constructor
  · rintro ⟨hsome, husage⟩
    obtain ⟨t, ht⟩ := Option.isSome_iff_exists.mp hsome
    obtain ⟨k, rfl⟩ := ((h.hdr ht).usage fun n hn => h.unstuck p n (hn ▸ ht)).2.mp husage
    exact ⟨k, ht⟩
  · rintro ⟨k, hk⟩
    exact ⟨Option.isSome_iff_exists.mpr ⟨_, hk⟩, ((h.hdr hk).usage (by simp)).2.mpr ⟨k, rfl⟩⟩

/-- In a bin that counts no free slot every VHeader is full. -/
theorem BinsRecovered.nFree_eq_zero (h : BinsRecovered w) (hzero : ∀ ab, (w.bin ab).nFree = 0)
    (hk : k < w.nVheaders) : (w.vheaders k).nFree = 0 := by
  have hsum := h.sum (w.vheaders k).bin
  rw [hzero] at hsum
  exact List.sum_eq_zero_iff.mp hsum.symm _
    (List.mem_map_of_mem (mem_binVheaders.mpr ⟨hk, rfl⟩))

namespace Recovered

/-- Neither pass counts free slots. -/
theorem bin_nFree (h : Recovered P L p₀ img w₀ w) (ab : ℕ × ℕ) : (w.bin ab).nFree = 0 := by
  rw [h.scan.bin]
  exact h.log.nFree ab

/-- The thread builds a VHeader for every run that no log entry names. -/
theorem mem_newRuns_of_unnamed (h : Recovered P L p₀ img w₀ w) {k : ℕ} (hp : L p = some (.run k))
    (hnamed : ¬ NamedBefore img maxLogEntries p) : p ∈ newRuns L w₀ (1024 * img.nextChunk) := by
  have heq := h.log.same hp hnamed
  obtain ⟨hversion, hone⟩ := h.inv.runVersion hp
  have hend := h.inv.ok.add_len_le hp
  have hpos := h.inv.ok.len_pos hp
  have hfits : (Tile.run k).Fits p := h.inv.ok.fits hp
  simp only [Tile.Fits] at hfits
  refine mem_newRuns.mpr ⟨⟨by omega, hfits, Option.isSome_iff_exists.mpr ⟨_, hp⟩⟩, ?_, ?_⟩
  · unfold usageAt
    rw [field_eqOn heq (by decide)]
    exact ((h.inv.hdr hp).usage (by simp)).2.mpr ⟨k, rfl⟩
  · rw [field_eqOn heq (by decide), hversion, h.log.currentVersion, hone]
    decide

/-- The bits of a run that no log entry names stay as they are. -/
theorem clearBits_of_unnamed (h : Recovered P L p₀ img w₀ w) {k : ℕ} (hp : L p = some (.run k))
    (hnamed : ¬ NamedBefore img maxLogEntries p) :
    clearBits (bitmapBit w.nvm.mem (4096 * p)) (slotsPerRun (field w.nvm.mem (4096 * p) nBytesF)) =
      clearBits (bitmapBit img.mem (4096 * p)) (slotsPerRun (field img.mem (4096 * p) nBytesF)) := by
  have heq := h.log.same hp hnamed
  have hslots := slotsPerRun_lt_of_runSize (h.inv.hdr hp).1.1
  rw [h.scan.field_eq (by decide), field_eqOn heq (by decide)]
  refine clearBits_congr fun i hi => ?_
  rw [h.scan.bitmapBit_eq (by omega), bitmapBit_eqOn heq (by omega)]

theorem run_of_mem_newRuns (h : Recovered P L p₀ img w₀ w)
    (hp : p ∈ newRuns L w₀ (1024 * img.nextChunk)) : ∃ k, L p = some (.run k) := by
  obtain ⟨⟨-, -, hsome⟩, husage, -⟩ := mem_newRuns.mp hp
  obtain ⟨t, ht⟩ := Option.isSome_iff_exists.mp hsome
  obtain ⟨k, rfl⟩ := ((h.log.hdrOk h.inv ht).usage fun n hn => h.unstuck p n (hn ▸ ht)).2.mp husage
  exact ⟨k, ht⟩

/-- If no log entry names a run, then the VHeaders are those of the thread. -/
theorem vheader_new (h : Recovered P L p₀ img w₀ w)
    (hall : ∀ p k, L p = some (.run k) → ¬ NamedBefore img maxLogEntries p) :
    w.nVheaders = (newRuns L w₀ (1024 * img.nextChunk)).length ∧
      ∀ i p, (newRuns L w₀ (1024 * img.nextChunk))[i]? = some p →
        Describes w.nvm.mem p (w.vheaders i) ∧ field w.nvm.mem (4096 * p) vdataF = i := by
  have hnone : w₀.nVheaders = 0 := by
    by_contra hne
    obtain ⟨p, k, hp, hnamed, -⟩ := h.log.vheader 0 (by omega)
    exact hall p k hp hnamed
  refine ⟨by rw [h.scan.count, hnone, Nat.zero_add], fun i p hi => ?_⟩
  obtain ⟨hdesc, hvdata, -⟩ := h.scan.new i p hi
  rw [hnone, Nat.zero_add] at hdesc hvdata
  have hlen : (newRuns L w₀ (1024 * img.nextChunk)).length ≤ 1024 * img.nextChunk := by
    refine (List.length_filter_le _ _).trans ((List.length_filter_le _ _).trans ?_)
    rw [List.length_range]
  have hmax : img.nextChunk ≤ 25600 := h.inv.le
  have hlt := (List.getElem?_eq_some_iff.mp hi).1
  refine ⟨hdesc, ?_⟩
  rw [hvdata]
  omega

/-- **When the bins are in order after recovery.** -/
theorem binsRecovered_iff (h : Recovered P L p₀ img w₀ w) :
    BinsRecovered w ↔ ∀ p k, L p = some (.run k) → FullUnnamed img p := by
  constructor
  · intro hbins p k hp
    have hunnamed : ¬ NamedBefore img maxLogEntries p := by
      intro hnamed
      -- the log loop has pushed a VHeader, which must have a free slot
      have hsome : ¬ ∀ ab, (w.bin ab).runs = none := by
        rw [h.scan.bin, h.log.runs]
        exact fun hnone => hnone p k hp hnamed
      obtain ⟨ab, hab⟩ := not_forall.mp hsome
      obtain ⟨l, hlinked, hmem⟩ := hbins.list ab
      cases l with
      | nil => exact hab hlinked
      | cons x l =>
        obtain ⟨hx, hpos⟩ := (hmem x).mp List.mem_cons_self
        have := hbins.nFree_eq_zero h.bin_nFree (mem_binVheaders.mp hx).1
        omega
    refine ⟨hunnamed, ?_⟩
    obtain ⟨i, hi⟩ := List.mem_iff_getElem?.mp (h.mem_newRuns_of_unnamed hp hunnamed)
    have hlt : i < (newRuns L w₀ (1024 * img.nextChunk)).length := (List.getElem?_eq_some_iff.mp hi).1
    rw [← h.clearBits_of_unnamed hp hunnamed, ← (h.scan.new i p hi).1.nFree]
    exact hbins.nFree_eq_zero h.bin_nFree (by have := h.scan.count; omega)
  · intro hall
    obtain ⟨hcount, hnew⟩ := h.vheader_new fun p k hp => (hall p k hp).1
    -- every VHeader was built by the thread and is full
    have hvheader : ∀ k < w.nVheaders, ∃ p, (newRuns L w₀ (1024 * img.nextChunk))[k]? = some p ∧
        Describes w.nvm.mem p (w.vheaders k) ∧ (w.vheaders k).nFree = 0 := by
      intro k hk
      obtain ⟨p, hp⟩ : ∃ p, (newRuns L w₀ (1024 * img.nextChunk))[k]? = some p :=
        ⟨_, List.getElem?_eq_getElem (hcount ▸ hk)⟩
      obtain ⟨r, hr⟩ := h.run_of_mem_newRuns (List.mem_of_getElem? hp)
      have hdesc := (hnew k p hp).1
      refine ⟨p, hp, hdesc, ?_⟩
      rw [hdesc.nFree, h.clearBits_of_unnamed hr (hall p r hr).1]
      exact (hall p r hr).2
    refine ⟨fun p hp => ?_, fun k hk => ?_, fun ab => ?_, fun ab => ⟨[], ?_, fun k => ?_⟩⟩
    · obtain ⟨r, hr⟩ := h.aligned.mem_runHeaders.mp hp
      obtain ⟨i, hi⟩ := List.mem_iff_getElem?.mp (h.mem_newRuns_of_unnamed hr (hall p r hr).1)
      have hlt : i < w.nVheaders := hcount ▸ (List.getElem?_eq_some_iff.mp hi).1
      obtain ⟨hdesc, hvdata⟩ := hnew i p hi
      refine ⟨i, hlt, hvdata, fun j hj => ⟨fun hrun => ?_, fun hji => hji ▸ hdesc.nvmRun⟩⟩
      obtain ⟨q, hq, hdesc', -⟩ := hvheader j hj
      obtain rfl : q = p := by
        have := hdesc'.nvmRun
        omega
      exact (List.getElem?_inj (hcount ▸ hj) (nodup_pagesBelow.filter _)).mp (hq.trans hi.symm)
    · obtain ⟨p, hp, hdesc, -⟩ := hvheader k hk
      obtain ⟨r, hr⟩ := h.run_of_mem_newRuns (List.mem_of_getElem? hp)
      have hslots := slotsPerRun_lt_of_runSize (h.aligned.hdr hr).1.1
      rw [hdesc.nFree, hdesc.nMax]
      exact clearBits_congr fun j hj => (hdesc.bitmap j (by omega)).symm
    · rw [h.bin_nFree]
      refine (List.sum_eq_zero fun x hx => ?_).symm
      obtain ⟨k, hk, rfl⟩ := List.mem_map.mp hx
      obtain ⟨-, -, -, hzero⟩ := hvheader k (mem_binVheaders.mp hk).1
      exact hzero
    · rw [h.scan.bin]
      exact h.log.runs.mpr (fun p k hp => (hall p k hp).1) ab
    · refine iff_of_false List.not_mem_nil fun hk => ?_
      obtain ⟨-, -, -, hzero⟩ := hvheader k (mem_binVheaders.mp hk.1).1
      omega

end Recovered

end

/-- **The bins are in order after recovery** precisely when no log entry names a run and every run is
full. -/
theorem bins_recovered_iff {P P' : Process} {img : Nvm} {w : World} (himg : CrashImage P img)
    (hout : ReplayOutside img) (hrec : RecoversHeap P' img w) :
    BinsRecovered w ↔ ∀ p ∈ runHeaders img, FullUnnamed img p := by
  obtain ⟨L, p₀, hinv⟩ := exists_imgInv himg
  obtain ⟨w₀, hrecovered⟩ := exists_recovered hinv (hout.wordsClear hinv) hrec
  have haligned : Aligned L img.mem img.nextChunk := ⟨hinv.ok, hinv.hdr, hrecovered.unstuck⟩
  rw [hrecovered.binsRecovered_iff]
  constructor
  · intro h p hp
    obtain ⟨k, hk⟩ := haligned.mem_runHeaders.mp hp
    exact h p k hk
  · exact fun h p k hp => h p (haligned.mem_runHeaders.mpr ⟨k, hp⟩)

/-- Between two calls the runs are those of the VHeaders. -/
theorem Reachable.mem_runHeaders {P : Process} {s : Sys} {p : ℕ} (hs : Reachable P s) :
    p ∈ runHeaders s.w.nvm ↔ ∃ k < s.w.nVheaders, (s.w.vheaders k).nvmRun = 4096 * p := by
  obtain ⟨L, hproc, -⟩ := sysInv_of_reachable hs
  rw [hproc.nvm.aligned.mem_runHeaders]
  constructor
  · rintro ⟨k, hk⟩
    exact ⟨k, (hproc.runs.run hk).1, (hproc.runs.run hk).2.nvmRun⟩
  · rintro ⟨k, hk, hpage⟩
    obtain ⟨q, hq⟩ := hproc.runs.tile k hk
    have hsame := (hproc.runs.run hq).2.nvmRun
    exact ⟨k, (show p = q by omega) ▸ hq⟩

/-- Both slots of a run are activated, and then as many blocks as the log has entries. -/
def fullRunHistory : List Op :=
  [.reserve 0 1984, .reserve 0 1984, .activate 4190272 none none, .activate 4192256 none none] ++
    (List.range maxLogEntries).flatMap fun i =>
      [.reserve 0 5000, .activate (4182080 - 8192 * i) none none]

/-- A heap with a full run that the log has left behind. -/
theorem bins_recovered_full_run : ∃ s w, Reachable sampleProcess s ∧ 1023 ∈ runHeaders s.w.nvm ∧
    RecoversHeap sampleProcess s.w.nvm w ∧ BinsRecovered w := by
  have hany : ((sampleHistory fullRunHistory).any fun s =>
      decide (s.w.nVheaders = 1 ∧ (s.w.vheaders 0).nvmRun = 4096 * 1023 ∧
        FullUnnamed s.w.nvm 1023)) = true := by
    decide +kernel
  obtain ⟨s, hs, htest⟩ := Process.exists_reachable hany
  obtain ⟨hone, hrun, hfull⟩ := of_decide_eq_true htest
  obtain ⟨himg, hout, w, hrec⟩ := hs.recovers sampleProcess
  refine ⟨s, w, hs, hs.mem_runHeaders.mpr ⟨0, by omega, hrun⟩, hrec,
    (bins_recovered_iff himg hout hrec).mpr fun p hp => ?_⟩
  obtain ⟨k, hk, hpage⟩ := hs.mem_runHeaders.mp hp
  obtain rfl : k = 0 := by omega
  rwa [show p = 1023 by omega]

/-- One small object is activated, then the process restarts: its run is in the list of its bin, and the
bin counts no free slot. -/
theorem bins_lose_free_slots : ∃ s w, Reachable sampleProcess s ∧
    RecoversHeap sampleProcess s.w.nvm w ∧ ¬ BinsRecovered w := by
  have hany : ((sampleHistory [.reserve 0 100, .activate 4190272 none none]).any fun s : Sys =>
      decide (∃ p ∈ runHeaders s.w.nvm, ¬ FullUnnamed s.w.nvm p)) = true := by
    decide +kernel
  obtain ⟨s, hs, htest⟩ := Process.exists_reachable hany
  obtain ⟨p, hp, hnot⟩ := of_decide_eq_true htest
  obtain ⟨himg, hout, w, hrec⟩ := hs.recovers sampleProcess
  obtain ⟨L, p₀, hinv⟩ := exists_imgInv himg
  obtain ⟨w₀, hrecovered⟩ := exists_recovered hinv (hout.wordsClear hinv) hrec
  have haligned : Aligned L s.w.nvm.mem s.w.nvm.nextChunk := ⟨hinv.ok, hinv.hdr, hrecovered.unstuck⟩
  obtain ⟨k, hk⟩ := haligned.mem_runHeaders.mp hp
  exact ⟨s, w, hs, hrec, fun hbins => hnot (hrecovered.binsRecovered_iff.mp hbins p k hk)⟩

end NvmMalloc
