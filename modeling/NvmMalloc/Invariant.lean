import NvmMalloc.Headers
import NvmMalloc.Bins

/-!
# The invariant of a running process

Between two calls the layout, the volatile structures and the client's ledger describe the same heap.
`PoolInv` says that the free trees hold exactly the tiles owned by a pool, `RunsInv` and `BinsInv` that
every run has one VHeader, known to its bin, and `LiveInv` that the outstanding regions are exactly the
tiles and slots owned by the client.

`Kept` is the part of this that a crash must not lose: the regions whose activation has returned.
-/

namespace NvmMalloc

open Memory

/-! ## Free pools -/

/-- `x` is the node of a page run that the pool of arena `a` owns. -/
def PoolRun (L : Layout) (a : ℕ) (x : ArenaBlock) : Prop :=
  ∃ p, L p = some (.block x.nPages (.pool a)) ∧ x.nvmBlock = 4096 * p ∧ x.arena = a

/-- `x` is the node of a huge region that the pool of chunks owns. -/
def PoolChunks (L : Layout) (x : Huge) : Prop :=
  ∃ p, L p = some (.huge x.nChunks (.pool 0)) ∧ x.nvmChunk = 4096 * p

/-- The free trees hold exactly the tiles that belong to a pool, each once. -/
structure PoolInv (L : Layout) (w : World) : Prop where
  pages : ∀ a, (w.arenas a).freePageruns.Holds (PoolRun L a)
  chunks : w.freeChunks.Holds (PoolChunks L)

/-! ## Runs -/

/-- VHeader `k` describes the run on page `p`. -/
structure RunOf (m : Mem) (H : ℕ → ArenaRun) (p k : ℕ) : Prop where
  nvmRun : (H k).nvmRun = 4096 * p
  elemSize : (H k).elemSize = field m (4096 * p) nBytesF
  bin : (H k).bin = (field m (4096 * p) runArenaIdF, (H k).elemSize / 64 - 1)
  nMax : (H k).nMax = slotsPerRun (H k).elemSize
  vdata : field m (4096 * p) vdataF = k

/-- The VHeaders are those of the run tiles. -/
structure RunsInv (L : Layout) (w : World) : Prop where
  run : ∀ {p k}, L p = some (.run k) → k < w.nVheaders ∧ RunOf w.nvm.mem w.vheaders p k
  tile : ∀ k < w.nVheaders, ∃ p, L p = some (.run k)

/-- Every bin is in order, with its runs among the first `n` VHeaders. -/
def BinsInv (H : ℕ → ArenaRun) (bin : ℕ × ℕ → ArenaBin) (n : ℕ) : Prop :=
  ∀ ab, ∃ R, BinInv (64 * (ab.2 + 1)) H (bin ab) R ∧ ∀ k, k ∈ R ↔ k < n ∧ (H k).bin = ab

/-! ## Outstanding regions -/

/-- Where an outstanding region lies. -/
inductive Placed (L : Layout) (m : Mem) (H : ℕ → ArenaRun) (r : Region) : Prop where
  | small (hsize : r.nBytes ≤ sclassSmallMax) {p k i : ℕ} (htile : L p = some (.run k))
      (helem : (H k).elemSize = roundUp r.nBytes 64) (hi : i < slotsPerRun (H k).elemSize)
      (hptr : r.ptr = 4096 * p + 64 + (H k).elemSize * i) (hbit : (H k).bitmap i = true)
      (hnvm : bitmapBit m (4096 * p) i = r.active)
  | large (hlo : sclassSmallMax < r.nBytes) (hhi : r.nBytes ≤ sclassLargeMax) {p : ℕ}
      (htile : L p = some (.block (roundUp r.nBytes blockSize / blockSize) (.user r.active)))
      (hptr : r.ptr = 4096 * p + 64)
  | huge (hlo : sclassLargeMax < r.nBytes) {p : ℕ}
      (htile : L p = some (.huge (chunksFor r.nBytes) (.user r.active)))
      (hptr : r.ptr = 4096 * p + 64)

/-- The outstanding regions are exactly the tiles and slots the client owns. -/
structure LiveInv (L : Layout) (m : Mem) (H : ℕ → ArenaRun) (live : List Region) : Prop where
  nodup : (live.map Region.ptr).Nodup
  size : ∀ r ∈ live, 1 ≤ r.nBytes ∧ r.nBytes ≤ maxNvmSpace
  placed : ∀ r ∈ live, Placed L m H r
  block : ∀ {p n b}, L p = some (.block n (.user b)) → ∃ r ∈ live, r.ptr = 4096 * p + 64
  huge : ∀ {p n b}, L p = some (.huge n (.user b)) → ∃ r ∈ live, r.ptr = 4096 * p + 64
  slot : ∀ {p k i}, L p = some (.run k) → i < slotsPerRun (H k).elemSize → (H k).bitmap i = true →
    ∃ r ∈ live, r.ptr = 4096 * p + 64 + (H k).elemSize * i
  nvmBit : ∀ {p k i}, L p = some (.run k) → i < 64 → bitmapBit m (4096 * p) i = true →
    i < slotsPerRun (H k).elemSize ∧ (H k).bitmap i = true

/-! ## Regions a crash must keep -/

/-- The header of `r` says that `r` is allocated, and no free of it is in progress. -/
inductive KeptRegion (L : Layout) (m : Mem) (r : Region) : Prop where
  | small (hsize : r.nBytes ≤ sclassSmallMax) {p k i : ℕ} (htile : L p = some (.run k))
      (helem : field m (4096 * p) nBytesF = roundUp r.nBytes 64)
      (hi : i < slotsPerRun (roundUp r.nBytes 64))
      (hptr : r.ptr = 4096 * p + 64 + roundUp r.nBytes 64 * i)
      (hbit : bitmapBit m (4096 * p) i = true)
      (hfree : field m (4096 * p) stateF = usageRun + stateFreeing → field m (4096 * p) bitIdxF ≠ i)
  | large (hlo : sclassSmallMax < r.nBytes) (hhi : r.nBytes ≤ sclassLargeMax) {p : ℕ} {o : Owner}
      (htile : L p = some (.block (roundUp r.nBytes blockSize / blockSize) o))
      (hptr : r.ptr = 4096 * p + 64)
      (hstate : field m (4096 * p) stateF = usageBlock + stateInitialized)
  | huge (hlo : sclassLargeMax < r.nBytes) {p : ℕ} {o : Owner}
      (htile : L p = some (.huge (chunksFor r.nBytes) o)) (hptr : r.ptr = 4096 * p + 64)
      (hstate : field m (4096 * p) stateF = usageHuge + stateInitialized)

/-- Every active region of the ledger is marked allocated. -/
def Kept (live : List Region) (L : Layout) (m : Mem) : Prop :=
  ∀ r ∈ live, r.active = true → KeptRegion L m r

/-- What a call does that can leave a header recovery cannot cope with: it grows the heap, turns a
page run of one page into a run, and perhaps one that the log names, activates a huge region that was
never free, or commits a header that records an old link.  `links` are the link words it was asked to
store. -/
structure Blame where
  grow : Prop
  convert : Prop
  logged : Prop
  fresh : Prop
  stale : Prop
  links : List (ℕ × ℕ)

/-- A call that only grows the heap, as `nvm_initialize_empty` does. -/
def Blame.growth : Blame := ⟨True, False, False, False, False, []⟩

/-- A call of which nothing is known. -/
def Blame.any : Blame := ⟨True, True, True, True, True, []⟩

/-- The call turns the page run with the data at `x` into a run, whether the log names `x` or not. -/
def Blame.Converts (B : Blame) (nvm : Nvm) (x : ℕ) : Prop :=
  B.convert ∧ ∀ i < maxLogEntries, nvm.log i = x → B.logged

theorem Blame.any_converts {nvm : Nvm} {x : ℕ} : Blame.any.Converts nvm x :=
  ⟨trivial, fun _ _ _ => trivial⟩

/-- Every header recovery cannot cope with has its cause in the call that was cut. -/
structure Blames (B : Blame) (L : Layout) (img : Nvm) : Prop where
  stuck : ∀ {p n}, L p = some (.stuck n) → B.Converts img (4096 * p + 64) ∨ B.grow ∧
    getUsage (field img.mem (4096 * p) stateF) ≠ usageRun ∧ ¬ Mentions img (4096 * p + 64)
  zero : ∀ {p n o}, L p = some (.block n o) → field img.mem (4096 * p) stateF = 0 →
    B.Converts img (4096 * p + 64)
  fresh : ∀ {p n o i}, L p = some (.huge n o) → i < maxLogEntries → img.log i = 4096 * p + 64 →
    field img.mem (4096 * p) stateF = usageHuge + stateInitializing → B.fresh
  words : ∀ {p t}, L p = some t → Pending img.mem p →
    B.stale ∨ recordedWords img.mem (4096 * p) t.on = B.links ∧ L.Bodies B.links

/-- The images a crash may leave while the regions `live` must survive. -/
def CrashOk (B : Blame) (live : List Region) (img : Nvm) : Prop :=
  ∃ L p₀, ImgInv L p₀ img ∧ Kept live L img.mem ∧ Blames B L img

theorem Quiet.state_ne_zero {m : Mem} {p n : ℕ} {o : Owner} (hq : Quiet m p (.block n o)) :
    field m (4096 * p) stateF ≠ 0 := by
  rw [hq.2.2.1]
  rcases o with a | - | _ | _ <;> simp only [blockState] <;> decide

/-- Between two calls recovery can cope with every header. -/
theorem NvmInv.blames {L : Layout} {nvm : Nvm} (h : NvmInv L nvm) (B : Blame) : Blames B L nvm where
  stuck hp := absurd (h.quiet hp) id
  zero hp hst := absurd hst (h.quiet hp).state_ne_zero
  fresh hp hi hlog hst := absurd hst (h.logHuge hp hi hlog)
  words hp hpend := absurd hpend (h.quiet hp).settled.not_pending

/-! ## Frame rules -/

section

variable {L L' : Layout} {m m' : Mem} {H H' : ℕ → ArenaRun} {w w' : World} {live : List Region}

/-- A tile that `set` neither adds nor removes. -/
theorem Layout.set_eq_some_iff {p q : ℕ} {t u : Tile} (hold : L p ≠ some u) (hnew : t ≠ u) :
    L.set p t q = some u ↔ L q = some u := by
  by_cases hq : q = p
  · subst hq
    rw [Layout.set_self]
    exact ⟨fun h => absurd (Option.some.inj h) hnew, fun h => absurd h hold⟩
  · rw [Layout.set_of_ne hq]

theorem PoolInv.congr (h : PoolInv L w)
    (hpages : ∀ p n a, L' p = some (.block n (.pool a)) ↔ L p = some (.block n (.pool a)))
    (hchunks : ∀ p n a, L' p = some (.huge n (.pool a)) ↔ L p = some (.huge n (.pool a)))
    (htrees : ∀ a, (w'.arenas a).freePageruns = (w.arenas a).freePageruns)
    (hfree : w'.freeChunks = w.freeChunks) : PoolInv L' w' where
  pages a := by
    rw [htrees]
    exact (h.pages a).congr fun x => by simp only [PoolRun, hpages]
  chunks := by
    rw [hfree]
    exact h.chunks.congr fun x => by simp only [PoolChunks, hchunks]

theorem RunOf.congr {p k : ℕ} (h : RunOf m H p k) (heq : EqOn m m' (4096 * p) 64)
    (hrun : (H' k).nvmRun = (H k).nvmRun) (helem : (H' k).elemSize = (H k).elemSize)
    (hbin : (H' k).bin = (H k).bin) (hmax : (H' k).nMax = (H k).nMax) : RunOf m' H' p k where
  nvmRun := hrun.trans h.nvmRun
  elemSize := by rw [helem, field_eqOn heq (by decide)]; exact h.elemSize
  bin := by rw [hbin, helem, field_eqOn heq (by decide)]; exact h.bin
  nMax := by rw [hmax, helem]; exact h.nMax
  vdata := by rw [field_eqOn heq (by decide)]; exact h.vdata

theorem RunsInv.congr (h : RunsInv L w)
    (hrun : ∀ p k, L' p = some (.run k) ↔ L p = some (.run k))
    (heq : ∀ p k, L p = some (.run k) → EqOn w.nvm.mem w'.nvm.mem (4096 * p) 64)
    (hH : w'.vheaders = w.vheaders) (hn : w'.nVheaders = w.nVheaders) : RunsInv L' w' where
  run hp := by
    have hp' := (hrun _ _).mp hp
    obtain ⟨hk, hrunOf⟩ := h.run hp'
    exact ⟨hn ▸ hk, hrunOf.congr (heq _ _ hp') (by rw [hH]) (by rw [hH]) (by rw [hH]) (by rw [hH])⟩
  tile k hk := by
    obtain ⟨p, hp⟩ := h.tile k (hn ▸ hk)
    exact ⟨p, (hrun p k).mpr hp⟩

theorem slotsPerRun_lt_of_runSize {n : ℕ} (h : RunSize n) : slotsPerRun n ≤ 63 := by
  obtain ⟨c, -, rfl⟩ := h
  exact slotsPerRun_le (by omega)

/-- Small requests are rounded up to a multiple of 64. -/
theorem roundUp_64 (n : ℕ) : roundUp n 64 = 64 * ((n + 63) / 64) := by
  unfold roundUp
  split <;> omega

theorem slotsPerRun_roundUp_le (n : ℕ) : slotsPerRun (roundUp n 64) ≤ 63 := by
  rw [roundUp_64]
  by_cases hq : (n + 63) / 64 = 0
  · simp [hq, slotsPerRun]
  · exact slotsPerRun_le (by omega)

theorem Placed.congr {r : Region} (h : Placed L m H r)
    (hrun : ∀ p k, L p = some (.run k) → L' p = some (.run k))
    (hblock : ∀ p n b, L p = some (.block n (.user b)) → L' p = some (.block n (.user b)))
    (hhuge : ∀ p n b, L p = some (.huge n (.user b)) → L' p = some (.huge n (.user b)))
    (hbits : ∀ p k i, L p = some (.run k) → i < slotsPerRun (H k).elemSize →
      bitmapBit m' (4096 * p) i = bitmapBit m (4096 * p) i)
    (helem : ∀ p k, L p = some (.run k) → (H' k).elemSize = (H k).elemSize)
    (hbitmap : ∀ p k i, L p = some (.run k) → (H k).bitmap i = true → (H' k).bitmap i = true) :
    Placed L' m' H' r := by
  cases h with
  | @small hsize p k i htile he hi hptr hbit hnvm =>
    have hek := helem p k htile
    refine .small hsize (hrun p k htile) (hek.trans he) (hek ▸ hi) (hek ▸ hptr)
      (hbitmap p k i htile hbit) ?_
    rw [hbits p k i htile hi]
    exact hnvm
  | large hlo hhi htile hptr => exact .large hlo hhi (hblock _ _ _ htile) hptr
  | huge hlo htile hptr => exact .huge hlo (hhuge _ _ _ htile) hptr

/-- The ledger does not see changes elsewhere. -/
theorem LiveInv.congr (h : LiveInv L m H live)
    (hrun : ∀ p k, L' p = some (.run k) ↔ L p = some (.run k))
    (hblock : ∀ p n b, L' p = some (.block n (.user b)) ↔ L p = some (.block n (.user b)))
    (hhuge : ∀ p n b, L' p = some (.huge n (.user b)) ↔ L p = some (.huge n (.user b)))
    (hbits : ∀ p k i, L p = some (.run k) → i < 64 →
      bitmapBit m' (4096 * p) i = bitmapBit m (4096 * p) i)
    (hsize : ∀ p k, L p = some (.run k) → slotsPerRun (H k).elemSize ≤ 63)
    (hH : ∀ p k, L p = some (.run k) → H' k = H k) : LiveInv L' m' H' live where
  nodup := h.nodup
  size := h.size
  placed r hr := (h.placed r hr).congr (fun p k => (hrun p k).mpr) (fun p n b => (hblock p n b).mpr)
    (fun p n b => (hhuge p n b).mpr)
    (fun p k i hp hi => hbits p k i hp (by have := hsize p k hp; omega))
    (fun p k hp => by rw [hH p k hp]) (fun p k i hp hb => by rw [hH p k hp]; exact hb)
  block hp := h.block ((hblock _ _ _).mp hp)
  huge hp := h.huge ((hhuge _ _ _).mp hp)
  slot {p k i} hp hi hbit := by
    have hp' := (hrun p k).mp hp
    rw [hH p k hp'] at hi hbit ⊢
    exact h.slot hp' hi hbit
  nvmBit {p k i} hp hi hbit := by
    have hp' := (hrun p k).mp hp
    rw [hbits p k i hp' hi] at hbit
    rw [hH p k hp']
    exact h.nvmBit hp' hi hbit

theorem KeptRegion.congr {r : Region} (h : KeptRegion L m r)
    (hrun : ∀ p k, L p = some (.run k) → L' p = some (.run k) ∧ EqOn m m' (4096 * p) 64)
    (hblock : ∀ p n o, L p = some (.block n o) →
      field m (4096 * p) stateF = usageBlock + stateInitialized →
      (∃ o', L' p = some (.block n o')) ∧ EqOn m m' (4096 * p) 64)
    (hhuge : ∀ p n o, L p = some (.huge n o) →
      field m (4096 * p) stateF = usageHuge + stateInitialized →
      (∃ o', L' p = some (.huge n o')) ∧ EqOn m m' (4096 * p) 64) :
    KeptRegion L' m' r := by
  cases h with
  | @small hsize p k i htile helem hi hptr hbit hfree =>
    obtain ⟨htile', heq⟩ := hrun p k htile
    have hsmall : i < 64 := by
      have := slotsPerRun_roundUp_le r.nBytes
      omega
    refine .small hsize htile' ?_ hi hptr ?_ ?_
    · rwa [field_eqOn heq (by decide)]
    · rwa [bitmapBit_eqOn heq hsmall]
    · rwa [field_eqOn heq (by decide), field_eqOn heq (by decide)]
  | @large hlo hhi p o htile hptr hstate =>
    obtain ⟨⟨o', htile'⟩, heq⟩ := hblock _ _ _ htile hstate
    exact .large hlo hhi htile' hptr (by rwa [field_eqOn heq (by decide)])
  | @huge hlo p o htile hptr hstate =>
    obtain ⟨⟨o', htile'⟩, heq⟩ := hhuge _ _ _ htile hstate
    exact .huge hlo htile' hptr (by rwa [field_eqOn heq (by decide)])

end

/-! ## The heap between two calls -/

/-- NVM, pools, VHeaders and ledger agree with the layout `L`. -/
structure HeapInv (L : Layout) (w : World) (live : List Region) : Prop where
  nvm : NvmInv L w.nvm
  pool : PoolInv L w
  runs : RunsInv L w
  live : LiveInv L w.nvm.mem w.vheaders live

namespace HeapInv

variable {L : Layout} {w : World} {live : List Region}

theorem elemSize_runSize (h : HeapInv L w live) {p k : ℕ} (hp : L p = some (.run k)) :
    RunSize (w.vheaders k).elemSize := by
  rw [(h.runs.run hp).2.elemSize]
  exact (h.nvm.quiet hp).1.1

theorem slots_le (h : HeapInv L w live) {p k : ℕ} (hp : L p = some (.run k)) :
    slotsPerRun (w.vheaders k).elemSize ≤ 63 :=
  slotsPerRun_lt_of_runSize (h.elemSize_runSize hp)

/-- Between two calls every active region is marked allocated. -/
theorem kept (h : HeapInv L w live) : Kept live L w.nvm.mem := by
  intro r hr hactive
  cases h.live.placed r hr with
  | @small hsize p k i htile helem hi hptr hbit hnvm =>
    have hquiet := h.nvm.quiet htile
    refine .small hsize htile ?_ (helem ▸ hi) (helem ▸ hptr) (hnvm.trans hactive) fun hst => ?_
    · rw [← (h.runs.run htile).2.elemSize, helem]
    · rw [hquiet.2.1] at hst
      exact absurd hst (by decide)
  | large hlo hhi htile hptr =>
    rw [hactive] at htile
    exact .large hlo hhi htile hptr (h.nvm.quiet htile).2.2.1
  | huge hlo htile hptr =>
    rw [hactive] at htile
    exact .huge hlo htile hptr (h.nvm.quiet htile).2.1

theorem crashOk (h : HeapInv L w live) (B : Blame) : CrashOk B live w.nvm :=
  ⟨L, 0, h.nvm.imgInv 0, h.kept, h.nvm.blames B⟩

end HeapInv

/-! ## What the object table sees -/

/-- The object table, on NVM and off it, is as before. -/
structure Untouched (w w' : World) : Prop where
  ot : w'.ot = w.ot
  nvmStart : w'.nvmStart = w.nvmStart
  currentVersion : w'.currentVersion = w.currentVersion
  table : ∀ c < initialArenas, EqOn w.nvm.mem w'.nvm.mem (4194304 * c) 4096

theorem Untouched.trans {w w' w'' : World} (h : Untouched w w') (h' : Untouched w' w'') :
    Untouched w w'' :=
  ⟨h'.ot.trans h.ot, h'.nvmStart.trans h.nvmStart, h'.currentVersion.trans h.currentVersion,
    fun c hc => (h.table c hc).trans (h'.table c hc)⟩

/-- Only NVM and the free pools change. -/
structure PoolOnly (w w' : World) : Prop extends Untouched w w' where
  vheaders : w'.vheaders = w.vheaders
  nVheaders : w'.nVheaders = w.nVheaders
  bin : w'.bin = w.bin

theorem PoolOnly.trans {w w' w'' : World} (h : PoolOnly w w') (h' : PoolOnly w' w'') :
    PoolOnly w w'' :=
  ⟨h.toUntouched.trans h'.toUntouched, h'.vheaders.trans h.vheaders, h'.nVheaders.trans h.nVheaders,
    h'.bin.trans h.bin⟩

end NvmMalloc
