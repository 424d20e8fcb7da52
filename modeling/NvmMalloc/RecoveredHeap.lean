import NvmMalloc.ScanEffect
import NvmMalloc.RecoverySafety
import NvmMalloc.Capacity

/-!
# The heap after recovery

Reference: `src/nvm_malloc.c` (`nvm_initialize_recovered`, `nvm_recovery_thread`), `src/arena.c`
(`arena_create_run_header`, `arena_create_block_header`).

When the log loop and the recovery thread have completed, NVM and the volatile structures are a function
of the crash image: `Recovered` says which.  The results about the recovered heap follow from it: what
was activated is not offered again, and which pools and bins are complete.
-/

namespace NvmMalloc

open Memory CrashM

/-! ## Replayed words and metadata -/

/-- The pages whose headers the walks of the recovery thread meet. -/
def headerPages (nvm : Nvm) : List ℕ :=
  (chunkHeaders nvm).map (1024 * ·) ++ (arenaChunks nvm).flatMap (pageHeaders nvm.mem)

/-- Where the header on page `p` records links. -/
def onAt (m : Mem) (p : ℕ) : ℕ := if usageAt m p = usageRun then runOn else blockOn

/-- The link words that the log loop replays lie outside allocator metadata. -/
def ReplayOutside (img : Nvm) : Prop :=
  ∀ i < maxLogEntries, img.log i ≠ 0 → Pending img.mem (img.log i / 4096) →
    ∀ q ∈ headerPages img, Outside (recordedWords img.mem (4096 * (img.log i / 4096))
      (onAt img.mem (img.log i / 4096))) (4096 * q) 64

instance (img : Nvm) : Decidable (ReplayOutside img) :=
  inferInstanceAs (Decidable (∀ i < maxLogEntries, img.log i ≠ 0 → Pending img.mem (img.log i / 4096) →
    ∀ q ∈ headerPages img, Outside _ _ _))

/-- What recovery makes of `img`: `w₀` after the log loop, `w` after the recovery thread. -/
structure Recovered (P : Process) (L : Layout) (p₀ : ℕ) (img : Nvm) (w₀ w : World) : Prop where
  inv : ImgInv L p₀ img
  unstuck : ∀ p n, L p ≠ some (.stuck n)
  log : LogInv P L p₀ img maxLogEntries w₀
  scan : Scanned L (1024 * img.nextChunk) w₀ w

section

variable {P : Process} {L : Layout} {p₀ p : ℕ} {t : Tile} {img : Nvm} {w₀ w : World} {m : Mem}

theorem Aligned.mem_headerPages {nvm : Nvm} (h : Aligned L nvm.mem nvm.nextChunk) :
    p ∈ headerPages nvm ↔ (L p).isSome := by
  unfold headerPages
  rw [List.mem_append, List.mem_map, List.mem_flatMap]
  constructor
  · rintro (⟨c, hc, rfl⟩ | ⟨c, hc, hp⟩)
    · exact (h.chunkHeaders.2 c).mp hc
    · exact (((h.pageHeaders ((h.arenaChunks.2 c).mp hc)).2 p).mp hp).2
  · intro hsome
    obtain ⟨t, ht⟩ := Option.isSome_iff_exists.mp hsome
    by_cases hmod : p % 1024 = 0
    · obtain ⟨c, rfl⟩ : ∃ c, p = 1024 * c := ⟨p / 1024, by omega⟩
      exact Or.inl ⟨c, (h.chunkHeaders.2 c).mpr hsome, rfl⟩
    · have harena := h.arena_of_page ht hmod
      refine Or.inr ⟨p / 1024, (h.arenaChunks.2 _).mpr harena, ?_⟩
      exact ((h.pageHeaders harena).2 p).mpr ⟨⟨by omega, by omega⟩, hsome⟩

theorem HdrOk.onAt_eq (h : HdrOk m p t) (hne : ∀ n, t ≠ .stuck n) : onAt m p = t.on := by
  have husage := (h.usage hne).2
  unfold onAt
  cases t with
  | run k => rw [if_pos (husage.mpr ⟨k, rfl⟩)]; rfl
  | arena => rw [if_neg fun hu => absurd (husage.mp hu) (by simp)]; rfl
  | huge n o => rw [if_neg fun hu => absurd (husage.mp hu) (by simp)]; rfl
  | block n o => rw [if_neg fun hu => absurd (husage.mp hu) (by simp)]; rfl
  | stuck n => exact absurd rfl (hne n)

/-- Words outside the metadata are words outside the headers of the tiles. -/
theorem ReplayOutside.wordsClear (h : ReplayOutside img) (himg : ImgInv L p₀ img) :
    WordsClear L img := by
  rintro p t hp ⟨i, hi, hne, rfl⟩ hpend q u hq
  -- while a tile is stuck nothing is replayed
  have hunstuck : ∀ q n, L q ≠ some (.stuck n) := fun q n hstuck =>
    absurd hpend (himg.calm hstuck hp).not_pending
  have haligned : Aligned L img.mem img.nextChunk := ⟨himg.ok, himg.hdr, hunstuck⟩
  rw [← (himg.hdr hp).onAt_eq fun n ht => hunstuck _ n (ht ▸ hp)]
  exact h i hi hne hpend q (haligned.mem_headerPages.mpr (by rw [hq]; rfl))

/-- **What a completed recovery has done.** -/
theorem exists_recovered (himg : ImgInv L p₀ img) (hclear : WordsClear L img)
    (hrec : RecoversHeap P img w) : ∃ w₀, Recovered P L p₀ img w₀ w := by
  obtain ⟨fuel, hrun⟩ := hrec
  rw [recoverHeap_result, bind_result] at hrun
  obtain ⟨_, w₀, hloop, hthread⟩ := hrun
  have hlog := logInv_of_logLoop himg hclear hloop
  obtain ⟨hunstuck, hscan⟩ := (hlog.scanOk himg).thread hthread
  exact ⟨w₀, himg, hunstuck, hlog, hscan⟩

end

/-! ## Headers after recovery -/

section

variable {P : Process} {L : Layout} {p₀ p pos : ℕ} {t : Tile} {img : Nvm} {w₀ w : World}

/-- The thread changes two fields of a header. -/
theorem Scanned.field_eq (h : Scanned L pos w₀ w) {f : NvmField}
    (hf : f.off + f.width ≤ 8 ∨ 16 ≤ f.off ∧ f.off + f.width ≤ 60) :
    field w.nvm.mem (4096 * p) f = field w₀.nvm.mem (4096 * p) f := by
  refine field_congr fun x hx hx' => h.mem x fun q _ hbyte => ?_
  unfold ScanByte at hbyte
  omega

theorem Scanned.bitmapBit_eq (h : Scanned L pos w₀ w) {j : ℕ} (hj : j < 64) :
    bitmapBit w.nvm.mem (4096 * p) j = bitmapBit w₀.nvm.mem (4096 * p) j := by
  unfold bitmapBit
  rw [h.field_eq (by simp only [bitmapF]; omega)]

/-- The kind of a region that is in use. -/
theorem HdrOk.kind {m : Mem} (h : HdrOk m p t) (hne : ∀ k, t ≠ .stuck k) :
    (usageAt m p = usageBlock → ∃ n o, t = .block n o) ∧
      (usageAt m p = usageHuge → ∃ n o, t = .huge n o) := by
  have husage := h.usage hne
  cases t with
  | arena =>
    rw [husage.1.mpr rfl]
    exact ⟨fun hu => absurd hu (by decide), fun hu => absurd hu (by decide)⟩
  | run k =>
    rw [husage.2.mpr ⟨k, rfl⟩]
    exact ⟨fun hu => absurd hu (by decide), fun hu => absurd hu (by decide)⟩
  | stuck k => exact absurd rfl (hne k)
  | huge n o =>
    refine ⟨fun hu => ?_, fun _ => ⟨n, o, rfl⟩⟩
    have hst := h.2
    unfold usageAt at hu
    simp only [List.mem_cons, List.not_mem_nil, or_false] at hst
    rcases hst with hst | hst | hst | hst | hst <;> rw [hst] at hu <;> exact absurd hu (by decide)
  | block n o =>
    refine ⟨fun _ => ⟨n, o, rfl⟩, fun hu => ?_⟩
    have hst := h.2.2
    unfold usageAt at hu
    simp only [List.mem_cons, List.not_mem_nil, or_false] at hst
    rcases hst with hst | hst | hst | hst | hst | hst <;> rw [hst] at hu <;>
      exact absurd hu (by decide)

/-- What a log entry names is a tile. -/
theorem ImgInv.tile_of_named (h : ImgInv L p₀ img) (hnamed : NamedBefore img maxLogEntries p) :
    ∃ t, L p = some t := by
  obtain ⟨i, hi, hne, rfl⟩ := hnamed
  obtain ⟨q, t, hq, hnames⟩ := h.log i hi hne
  exact ⟨t, hnames.page ▸ hq⟩

/-- The log loop redoes the one header that is in transition, if an entry names it. -/
theorem ImgInv.redone_cases (h : ImgInv L p₀ img) (nvmStart : ℕ) :
    (∃ t, L p₀ = some t ∧ NamedBefore img maxLogEntries p₀ ∧
      redoneBefore L p₀ nvmStart img maxLogEntries = redo nvmStart img.mem p₀ t ∧
      ∀ p, NamedBefore img maxLogEntries p → Pending img.mem p → p = p₀) ∨
    redoneBefore L p₀ nvmStart img maxLogEntries = .nothing ∧
      ∀ p, NamedBefore img maxLogEntries p → ¬ Pending img.mem p := by
  have honly : ∀ p, NamedBefore img maxLogEntries p → Pending img.mem p → p = p₀ := by
    intro p hnamed hpend
    obtain ⟨u, hu⟩ := h.tile_of_named hnamed
    by_contra hne
    exact (h.settled hu hne).not_pending hpend
  by_cases hnamed : NamedBefore img maxLogEntries p₀
  · obtain ⟨t, hp⟩ := h.tile_of_named hnamed
    refine Or.inl ⟨t, hp, hnamed, ?_, honly⟩
    unfold redoneBefore
    rw [hp]
    exact if_pos hnamed
  · refine Or.inr ⟨?_, fun p hnamed' hpend => hnamed (honly p hnamed' hpend ▸ hnamed')⟩
    unfold redoneBefore
    split
    · rfl
    · exact if_neg hnamed

theorem pending_of_freeing {m : Mem} (hst : field m (4096 * p) stateF = usageBlock + stateFreeing ∨
    field m (4096 * p) stateF = usageHuge + stateFreeing) : Pending m p := by
  unfold Pending
  rcases hst with hst | hst <;> rw [hst] <;> decide

/-- What the log loop hands to the trees of free page runs: the block whose free it completes. -/
theorem ImgInv.redone_pages (h : ImgInv L p₀ img) {nvmStart : ℕ} {x : ArenaBlock} :
    x ∈ (redoneBefore L p₀ nvmStart img maxLogEntries).pages ↔
      ∃ p, NamedBefore img maxLogEntries p ∧
        field img.mem (4096 * p) stateF = usageBlock + stateFreeing ∧ x = blockNode img.mem p := by
  rcases h.redone_cases nvmStart with ⟨t, -, hnamed, hredo, honly⟩ | ⟨hredo, hnone⟩
  · rw [hredo]
    constructor
    · intro hx
      simp only [redo] at hx
      split at hx
      · rename_i hst
        exact ⟨p₀, hnamed, hst, List.mem_singleton.mp hx⟩
      · exact absurd hx (by simp)
    · rintro ⟨p, hnamed', hst, rfl⟩
      obtain rfl := honly p hnamed' (pending_of_freeing (Or.inl hst))
      simp only [redo, if_pos hst]
      exact List.mem_singleton_self _
  · rw [hredo]
    refine ⟨fun hx => absurd hx (by simp [Redo.nothing]), ?_⟩
    rintro ⟨p, hnamed, hst, -⟩
    exact absurd (pending_of_freeing (Or.inl hst)) (hnone p hnamed)

/-- What the log loop hands to the tree of free chunks: the huge region whose free it completes. -/
theorem ImgInv.redone_chunks (h : ImgInv L p₀ img) {nvmStart : ℕ} {x : Huge} :
    x ∈ (redoneBefore L p₀ nvmStart img maxLogEntries).chunks ↔
      ∃ p, NamedBefore img maxLogEntries p ∧
        field img.mem (4096 * p) stateF = usageHuge + stateFreeing ∧ x = hugeNode img.mem p := by
  rcases h.redone_cases nvmStart with ⟨t, -, hnamed, hredo, honly⟩ | ⟨hredo, hnone⟩
  · rw [hredo]
    constructor
    · intro hx
      simp only [redo] at hx
      split at hx
      · rename_i hst
        exact ⟨p₀, hnamed, hst, List.mem_singleton.mp hx⟩
      · exact absurd hx (by simp)
    · rintro ⟨p, hnamed', hst, rfl⟩
      obtain rfl := honly p hnamed' (pending_of_freeing (Or.inr hst))
      simp only [redo, if_pos hst]
      exact List.mem_singleton_self _
  · rw [hredo]
    refine ⟨fun hx => absurd hx (by simp [Redo.nothing]), ?_⟩
    rintro ⟨p, hnamed, hst, -⟩
    exact absurd (pending_of_freeing (Or.inr hst)) (hnone p hnamed)

namespace Recovered

theorem aligned (h : Recovered P L p₀ img w₀ w) : Aligned L w.nvm.mem w.nvm.nextChunk := by
  have hchunks : w.nvm.nextChunk = img.nextChunk := by
    rw [h.scan.nvm]
    exact h.log.nextChunk
  refine ⟨hchunks ▸ h.inv.ok, fun hp => ?_, h.unstuck⟩
  refine (h.log.hdrOk h.inv hp).scan fun x hx hx' hbyte => h.scan.mem x fun q _ hq => hbyte ?_
  unfold ScanByte at hq ⊢
  omega

/-- The state byte of a region header after recovery. -/
theorem state_eq (h : Recovered P L p₀ img w₀ w) (hp : L p = some t) (hregion : ∀ k, t ≠ .run k) :
    field w.nvm.mem (4096 * p) stateF = if NamedBefore img maxLogEntries p then
      redoneState (field img.mem (4096 * p) stateF) else field img.mem (4096 * p) stateF := by
  rw [h.scan.field_eq (by decide)]
  split
  · rename_i hnamed
    have hdone := h.log.done hp hnamed
    cases t with
    | arena => exact absurd hdone id
    | stuck n => exact absurd hdone id
    | huge n o => exact hdone.2
    | block n o => exact hdone.2
    | run k => exact absurd rfl (hregion k)
  · rename_i hnamed
    exact field_eqOn (h.log.same hp hnamed) (by decide)

/-- Recovery keeps what a region that must survive depends on. -/
theorem kept (h : Recovered P L p₀ img w₀ w) {r : Region} (hr : KeptRegion L img.mem r) :
    KeptRegion L w.nvm.mem r := by
  cases hr with
  | @small hsize p k i htile helem hi hptr hbit hfree =>
    have hsmall : i < 64 := by
      have := slotsPerRun_roundUp_le r.nBytes
      omega
    have hbytes : field w.nvm.mem (4096 * p) nBytesF = field img.mem (4096 * p) nBytesF ∧
        bitmapBit w.nvm.mem (4096 * p) i = true ∧
        field w.nvm.mem (4096 * p) stateF ≠ usageRun + stateFreeing ∨
        EqOn img.mem w₀.nvm.mem (4096 * p) 64 := by
      by_cases hnamed : NamedBefore img maxLogEntries p
      · have hdone : RunRedone img.version img.mem w₀.nvm.mem (4096 * p) := h.log.done htile hnamed
        refine Or.inl ⟨?_, ?_, ?_⟩
        · rw [h.scan.field_eq (by decide)]
          exact field_congr fun x hx hx' => by
            simp only [nBytesF] at hx hx'
            exact hdone.keep x (by omega) (by omega) (by omega)
        · rw [h.scan.bitmapBit_eq hsmall, hdone.bits i hsmall, redoneBit,
            if_neg fun hf => hfree hf.1 hf.2]
          split
          · rfl
          · exact hbit
        · rw [h.scan.field_eq (by decide), hdone.state]
          decide
      · exact Or.inr (h.log.same htile hnamed)
    rcases hbytes with ⟨hbytes, hbit', hstate⟩ | heq
    · exact .small hsize htile (hbytes.trans helem) hi hptr hbit' fun hst => absurd hst hstate
    · refine .small hsize htile ?_ hi hptr ?_ ?_
      · rw [h.scan.field_eq (by decide), field_eqOn heq (by decide), helem]
      · rw [h.scan.bitmapBit_eq hsmall, bitmapBit_eqOn heq hsmall, hbit]
      · rw [h.scan.field_eq (by decide), field_eqOn heq (by decide), h.scan.field_eq (by decide),
          field_eqOn heq (by decide)]
        exact hfree
  | @large hlo hhi p o htile hptr hstate =>
    refine .large hlo hhi htile hptr ?_
    rw [h.state_eq htile (by simp), hstate]
    split <;> decide
  | @huge hlo p o htile hptr hstate =>
    refine .huge hlo htile hptr ?_
    rw [h.state_eq htile (by simp), hstate]
    split <;> decide

/-- A free page run on a page is a block. -/
theorem block_of_free (h : Aligned L w.nvm.mem w.nvm.nextChunk) (hp : L p = some t)
    (hmod : p % 1024 ≠ 0) (hfree : usageAt w.nvm.mem p = usageFree) : ∃ n o, t = .block n o := by
  rcases h.page_tile (c := p / 1024) hp (by omega) (by omega) with ⟨k, rfl⟩ | hblock
  · have hrun : usageAt w.nvm.mem p = usageRun := ((h.hdr hp).usage (by simp)).2.mpr ⟨k, rfl⟩
    exact absurd (hfree.symm.trans hrun) (by decide)
  · exact hblock

/-- A node of a tree of free page runs stands for a block whose header says free. -/
theorem pages_tile (h : Recovered P L p₀ img w₀ w) {a : ℕ} {x : ArenaBlock}
    (hx : x ∈ (w.arenas a).freePageruns.toList) :
    ∃ p n o, L p = some (.block n o) ∧ x.nvmBlock = 4096 * p ∧ x.nPages = n ∧
      usageAt w.nvm.mem p = usageFree := by
  rw [(h.scan.pages a).mem_iff, List.mem_append, List.mem_filter] at hx
  have hnode : ∀ {m : Mem} {p n : ℕ} {o : Owner}, L p = some (.block n o) →
      field m (4096 * p) nPagesF = n → (blockNode m p).nPages = n := by
    intro m p n o hp hn
    have hfits := h.inv.ok.fits hp
    simp only [Tile.Fits] at hfits
    show field m (4096 * p) nPagesF % 2 ^ 16 = n
    rw [hn]
    omega
  rcases hx with ⟨hx, -⟩ | hx
  · obtain ⟨p, hp, hx⟩ := List.mem_flatMap.mp hx
    obtain ⟨-, hmod, hsome⟩ := mem_pagesBelow.mp hp
    obtain ⟨t, ht⟩ := Option.isSome_iff_exists.mp hsome
    unfold scannedNodes at hx
    split at hx
    · rename_i hfree
      obtain rfl := List.mem_singleton.mp hx
      have hfree' : usageAt w.nvm.mem p = usageFree := by
        unfold usageAt at hfree ⊢
        rwa [h.scan.field_eq (by decide)]
      obtain ⟨n, o, rfl⟩ := block_of_free h.aligned ht hmod hfree'
      exact ⟨p, n, o, ht, rfl, hnode ht (h.log.hdrOk h.inv ht).1, hfree'⟩
    · exact absurd hx (by simp)
  · rw [(h.log.pages a).mem_iff, List.mem_filter, h.inv.redone_pages] at hx
    obtain ⟨⟨p, hnamed, hst, rfl⟩, -⟩ := hx
    obtain ⟨t, ht⟩ := h.inv.tile_of_named hnamed
    have hhdr := h.inv.hdr ht
    obtain ⟨n, o, rfl⟩ := (hhdr.kind fun k hk => h.unstuck p k (hk ▸ ht)).1
      (by rw [usageAt, hst]; decide)
    refine ⟨p, n, o, ht, rfl, hnode ht hhdr.1, ?_⟩
    unfold usageAt
    rw [h.state_eq ht (by simp), if_pos hnamed, hst]
    decide

/-- A node of the tree of free chunks stands for a huge region whose header says free. -/
theorem chunks_tile (h : Recovered P L p₀ img w₀ w) {x : Huge} (hx : x ∈ w.freeChunks.toList) :
    ∃ p n o, L p = some (.huge n o) ∧ x.nvmChunk = 4096 * p ∧ x.nChunks = n ∧
      usageAt w.nvm.mem p = usageFree := by
  rw [h.scan.freeChunks, h.log.chunks.mem_iff, h.inv.redone_chunks] at hx
  obtain ⟨p, hnamed, hst, rfl⟩ := hx
  obtain ⟨t, ht⟩ := h.inv.tile_of_named hnamed
  have hhdr := h.inv.hdr ht
  obtain ⟨n, o, rfl⟩ := (hhdr.kind fun k hk => h.unstuck p k (hk ▸ ht)).2
    (by rw [usageAt, hst]; decide)
  refine ⟨p, n, o, ht, rfl, hhdr.1, ?_⟩
  unfold usageAt
  rw [h.state_eq ht (by simp), if_pos hnamed, hst]
  decide

/-- Every VHeader was built from the header of a run. -/
theorem vheader_run (h : Recovered P L p₀ img w₀ w) {k : ℕ} (hk : k < w.nVheaders) :
    ∃ p r, L p = some (.run r) ∧ Describes w.nvm.mem p (w.vheaders k) := by
  by_cases hold : k < w₀.nVheaders
  · obtain ⟨p, r, hp, -, hdesc⟩ := h.log.vheader k hold
    have hhdr := h.log.hdrOk h.inv hp
    refine ⟨p, r, hp, ?_⟩
    rw [h.scan.old k hold]
    exact hdesc.congr (h.scan.field_eq (by decide)) (h.scan.field_eq (by decide))
      (fun j hj => h.scan.bitmapBit_eq hj) (slotsPerRun_lt_of_runSize hhdr.1.1)
  · have hcount := h.scan.count
    have hi : k - w₀.nVheaders < (newRuns L w₀ (1024 * img.nextChunk)).length := by omega
    obtain ⟨p, hp⟩ : ∃ p, (newRuns L w₀ (1024 * img.nextChunk))[k - w₀.nVheaders]? = some p :=
      ⟨_, List.getElem?_eq_getElem hi⟩
    obtain ⟨⟨-, -, hsome⟩, hrun, -⟩ := mem_newRuns.mp (List.mem_of_getElem? hp)
    obtain ⟨t, ht⟩ := Option.isSome_iff_exists.mp hsome
    obtain ⟨r, rfl⟩ := ((h.log.hdrOk h.inv ht).usage fun n hn => h.unstuck p n (hn ▸ ht)).2.mp hrun
    have hdesc := (h.scan.new _ p hp).1
    rw [show w₀.nVheaders + (k - w₀.nVheaders) = k by omega] at hdesc
    exact ⟨p, r, ht, hdesc⟩

end Recovered

end

/-! ## When recovery completes -/

/-- Recovery of the heap completes on the images of calls it can cope with, with fuel to spare for the
chain of the object table. -/
theorem Blames.exists_recoverHeap {P : Process} {B : Blame} {L : Layout} {p₀ : ℕ} {img : Nvm}
    (h : Blames B L img) (himg : ImgInv L p₀ img) (hgrow : ¬ B.grow) (hconv : ¬ B.convert)
    (hfresh : ¬ B.fresh) (hstale : ¬ B.stale) :
    ∃ fuel w, 20 ≤ fuel ∧ (recoverHeap fuel (P.start img)).2 = .ok ((), w) := by
  have hclear : WordsClear L img := h.wordsClear himg hstale
  have hunstuck : ∀ p n, L p ≠ some (.stuck n) := by
    intro p n hp
    rcases h.stuck hp with hc | ⟨hg, -⟩
    · exact hconv hc.1
    · exact hgrow hg
  have hloop : Located logLoop (StoresIn (LogPlace L img))
      (fun _ w' => LogInv P L p₀ img maxLogEntries w') (LogStops L img) (logStart P img) :=
    logLoop_located himg hclear logInv_start le_rfl
  cases hlog : (logLoop (logStart P img)).2 with
  | error e =>
    have hstop := hloop.stop hlog
    have hne := h.logStops himg (fun hc => hconv hc.1) hfresh hstop
    obtain ⟨i, -, p, t, hp, -, -, ⟨he, -⟩ | ⟨-, n, rfl⟩⟩ := hstop
    · exact absurd he hne
    · exact absurd hp (hunstuck p n)
  | ok x =>
    obtain ⟨_, w₀⟩ := x
    obtain ⟨fuel, w, hfuel, hthread⟩ := ((hloop.result hlog).scanOk himg).terminates hunstuck
    refine ⟨fuel, w, hfuel, ?_⟩
    rw [recoverHeap_result, bind_result]
    exact ⟨(), w₀, hlog, hthread⟩

theorem Blames.exists_recoversHeap {P : Process} {B : Blame} {L : Layout} {p₀ : ℕ} {img : Nvm}
    (h : Blames B L img) (himg : ImgInv L p₀ img) (hgrow : ¬ B.grow) (hconv : ¬ B.convert)
    (hfresh : ¬ B.fresh) (hstale : ¬ B.stale) : ∃ w, RecoversHeap P img w := by
  obtain ⟨fuel, w, -, hrun⟩ := h.exists_recoverHeap himg hgrow hconv hfresh hstale
  exact ⟨w, fuel, hrun⟩

/-- A crash between two calls finds nothing to replay, and recovery gets through. -/
theorem Reachable.recovers {P : Process} {s : Sys} (hs : Reachable P s) (P' : Process) :
    CrashImage P s.w.nvm ∧ ReplayOutside s.w.nvm ∧ ∃ w, RecoversHeap P' s.w.nvm w := by
  obtain ⟨L, hproc, -⟩ := sysInv_of_reachable hs
  have hvalid : (Op.reserve 0 1).Valid s := ⟨by decide, by decide, by decide⟩
  refine ⟨.call hs hvalid List.mem_cons_self, fun i hi hne hpend => ?_,
    (hproc.nvm.blames ⟨False, False, False, False, False, []⟩).exists_recoversHeap
      (hproc.nvm.imgInv 0) id id id id⟩
  obtain ⟨p, t, hp, hnames⟩ := (hproc.nvm.imgInv 0).log i hi hne
  rw [hnames.page] at hpend
  exact absurd hpend ((hproc.nvm.imgInv (p + 1)).settled hp (Nat.succ_ne_self p).symm).not_pending

/-! ## What was activated is not offered again -/

/-- The slot of a small region in its run. -/
def Region.slot (r : Region) : ℕ := (r.ptr % blockSize - headerSize) / roundUp r.nBytes 64

/-- The region is marked allocated on NVM. -/
def MarkedAllocated (m : Mem) (r : Region) : Prop :=
  if r.nBytes ≤ sclassSmallMax then
    getUsage (field m (r.ptr / blockSize * blockSize) stateF) = usageRun ∧
      field m (r.ptr / blockSize * blockSize) nBytesF = roundUp r.nBytes 64 ∧
      bitmapBit m (r.ptr / blockSize * blockSize) r.slot = true
  else if r.nBytes ≤ sclassLargeMax then
    field m (r.ptr - headerSize) stateF = usageBlock + stateInitialized
  else
    field m (r.ptr - headerSize) stateF = usageHuge + stateInitialized

/-- The region is allocated, and nothing that recovery built offers it again. -/
structure NotOffered (w : World) (r : Region) : Prop where
  marked : MarkedAllocated w.nvm.mem r
  pages : ∀ a, ∀ x ∈ (w.arenas a).freePageruns.toList,
    Apart r.ptr (grantedLen r.nBytes) x.nvmBlock (x.nPages * blockSize)
  chunks : ∀ x ∈ w.freeChunks.toList,
    Apart r.ptr (grantedLen r.nBytes) x.nvmChunk (x.nChunks * chunkSize)
  bits : r.nBytes ≤ sclassSmallMax → ∀ k < w.nVheaders,
    (w.vheaders k).nvmRun = r.ptr / blockSize * blockSize → (w.vheaders k).bitmap r.slot = true

section

variable {P : Process} {L : Layout} {p₀ : ℕ} {img : Nvm} {w₀ w : World} {r : Region} {m : Mem}

/-- A slot of a run by its address. -/
theorem slot_eq {p e i : ℕ} (hi : i < slotsPerRun e) (he : 64 ≤ e) :
    (4096 * p + 64 + e * i) / blockSize * blockSize = 4096 * p ∧
      ((4096 * p + 64 + e * i) % blockSize - headerSize) / e = i := by
  have hend := slot_end_le hi
  have hmod : (4096 * p + 64 + e * i) % blockSize - headerSize = e * i := by
    simp only [blockSize, headerSize]
    omega
  have hpage := slot_page (p := p) he hi
  refine ⟨?_, ?_⟩
  · rw [show blockSize = 4096 from rfl, hpage, Nat.mul_comm]
  · rw [hmod, Nat.mul_div_cancel_left i (by omega)]

/-- A region that must survive lies in the body of a tile whose header does not say free. -/
theorem KeptRegion.span (h : KeptRegion L m r) (hrun : ∀ {p t}, L p = some t → HdrOk m p t)
    (hsize : 1 ≤ r.nBytes ∧ r.nBytes ≤ maxNvmSpace) :
    ∃ p t, L p = some t ∧ usageAt m p ≠ usageFree ∧ 4096 * p ≤ r.ptr ∧
      r.ptr + grantedLen r.nBytes ≤ 4096 * (p + t.len) := by
  have hle : sclassSmallMax ≤ sclassLargeMax := by decide
  cases h with
  | @small hs p k i htile helem hi hptr hbit hfree =>
    have hend := slot_end_le hi
    refine ⟨p, _, htile, ?_, by omega, ?_⟩
    · rw [((hrun htile).usage (by simp)).2.mpr ⟨k, rfl⟩]
      decide
    · rw [grantedLen, if_pos hs, Tile.len_run]
      omega
  | @large hlo hhi p o htile hptr hstate =>
    refine ⟨p, _, htile, by rw [usageAt, hstate]; decide, by omega, ?_⟩
    rw [grantedLen, if_neg (by omega), if_pos hhi, Tile.len_block, roundUp_blockSize]
    simp only [blockSize, headerSize]
    omega
  | @huge hlo p o htile hptr hstate =>
    refine ⟨p, _, htile, by rw [usageAt, hstate]; decide, by omega, ?_⟩
    rw [grantedLen, if_neg (by omega), if_neg (by omega), Tile.len_huge, chunksFor_eq hsize.2]
    simp only [chunkSize, headerSize]
    lia

theorem KeptRegion.marked (h : KeptRegion L m r) (hrun : ∀ {p t}, L p = some t → HdrOk m p t)
    (hsize : 1 ≤ r.nBytes) : MarkedAllocated m r := by
  have hle : sclassSmallMax ≤ sclassLargeMax := by decide
  unfold MarkedAllocated
  cases h with
  | @small hs p k i htile helem hi hptr hbit hfree =>
    have he : 64 ≤ roundUp r.nBytes 64 := by
      rw [roundUp_64]
      omega
    obtain ⟨hpage, hslot⟩ := slot_eq (p := p) hi he
    rw [← hptr] at hpage hslot
    rw [if_pos hs, Region.slot, hslot, hpage]
    exact ⟨((hrun htile).usage (by simp)).2.mpr ⟨k, rfl⟩, helem, hbit⟩
  | @large hlo hhi p o htile hptr hstate =>
    rw [if_neg (by omega), if_pos hhi, show r.ptr - headerSize = 4096 * p by
      rw [hptr]; simp [headerSize]]
    exact hstate
  | @huge hlo p o htile hptr hstate =>
    rw [if_neg (by omega), if_neg (by omega), show r.ptr - headerSize = 4096 * p by
      rw [hptr]; simp [headerSize]]
    exact hstate

/-- **What was activated is not offered again.** -/
theorem Recovered.notOffered (h : Recovered P L p₀ img w₀ w) (hr : KeptRegion L img.mem r)
    (hsize : 1 ≤ r.nBytes ∧ r.nBytes ≤ maxNvmSpace) : NotOffered w r := by
  have hkept := h.kept hr
  have haligned := h.aligned
  obtain ⟨p, t, hp, husage, hlo, hhi⟩ := hkept.span haligned.hdr hsize
  refine ⟨hkept.marked haligned.hdr hsize.1, fun a x hx => ?_, fun x hx => ?_, fun hs k hk hrun => ?_⟩
  · obtain ⟨q, n, o, hq, haddr, hn, hfree⟩ := h.pages_tile hx
    have hne : p ≠ q := fun hpq => husage (hpq ▸ hfree)
    have hd := haligned.ok.disjoint hp hq hne
    rw [Tile.len_block] at hd
    unfold Apart
    rw [haddr, hn]
    simp only [blockSize]
    omega
  · obtain ⟨q, n, o, hq, haddr, hn, hfree⟩ := h.chunks_tile hx
    have hne : p ≠ q := fun hpq => husage (hpq ▸ hfree)
    have hd := haligned.ok.disjoint hp hq hne
    rw [Tile.len_huge] at hd
    unfold Apart
    rw [haddr, hn]
    simp only [chunkSize]
    omega
  · cases hkept with
    | @small hs' q j i htile helem hi hptr hbit hfree =>
      have he : 64 ≤ roundUp r.nBytes 64 := by
        rw [roundUp_64]
        omega
      obtain ⟨hpage, hslot⟩ := slot_eq (p := q) hi he
      rw [← hptr] at hpage hslot
      obtain ⟨q', j', -, hdesc⟩ := h.vheader_run hk
      have hqq : q' = q := by
        have := hdesc.nvmRun
        omega
      have hsmall : i < 64 := by
        have := slotsPerRun_roundUp_le r.nBytes
        omega
      rw [Region.slot, hslot, hdesc.bitmap i hsmall, hqq]
      exact hbit
    | large hlo' => omega
    | huge hlo' =>
      have hle : sclassSmallMax ≤ sclassLargeMax := by decide
      omega

end

/-- **Recovery never offers activated memory.** A region that was activated before the crash and whose
free had not been entered is allocated after recovery, overlaps no node of the free pools, and its bit
is set in every VHeader of its run. -/
theorem recovery_keeps_activated {P P' : Process} {s : Sys} {op : Op} {img : Nvm} {w : World}
    {r : Region} (hs : Reachable P s) (hvalid : op.Valid s) (himg : img ∈ cuts op.prog s.w)
    (hout : ReplayOutside img) (hrec : RecoversHeap P' img w) (hr : r ∈ s.live)
    (hactive : r.active = true) (hfree : op.frees s ≠ some r.ptr) : NotOffered w r := by
  obtain ⟨L, p₀, hinv, hkept, -⟩ := crashOk_of_cut hs hvalid himg
  obtain ⟨w₀, hrecovered⟩ := exists_recovered hinv (hout.wordsClear hinv) hrec
  have hspared : r ∈ op.spared s := by
    unfold Op.spared
    split
    · exact hr
    · rename_i ptr hptr
      refine mem_dropRegion.mpr ⟨hr, fun heq => hfree ?_⟩
      rw [hptr, heq]
  obtain ⟨L', hproc, -⟩ := sysInv_of_reachable hs
  exact hrecovered.notOffered (hkept r hspared hactive) (hproc.live.size r hr)

/-- A slot that was activated survives a crash inside a later write. -/
theorem recovery_keeps_activated_slot : ∃ s img w, Reachable sampleProcess s ∧
    img ∈ cuts (Op.write 4190272 7).prog s.w ∧ RecoversHeap sampleProcess img w ∧
    NotOffered w ⟨4190272, 100, true⟩ := by
  have hany : ((sampleHistory
      [.reserve 0 100, .activate 4190272 none none]).any fun s =>
      decide ((Op.write 4190272 7).Valid s ∧ ReplayOutside s.w.nvm ∧
        (⟨4190272, 100, true⟩ : Region) ∈ s.live)) = true := by
    decide +kernel
  obtain ⟨s, hs, htest⟩ := Process.exists_reachable hany
  obtain ⟨hvalid, hout, hr⟩ := of_decide_eq_true htest
  have himg : s.w.nvm ∈ cuts (Op.write 4190272 7).prog s.w := List.mem_cons_self
  obtain ⟨L, p₀, hinv, -, hblames⟩ := crashOk_of_cut hs hvalid himg
  obtain ⟨w, hrec⟩ := hblames.exists_recoversHeap (P := sampleProcess) hinv id id id id
  exact ⟨s, _, w, hs, himg, hrec,
    recovery_keeps_activated hs hvalid himg hout hrec hr rfl (by simp [Op.frees])⟩
end NvmMalloc
