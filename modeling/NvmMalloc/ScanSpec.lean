import NvmMalloc.LogSpec
import NvmMalloc.Walk
import Mathlib.Logic.Relation

/-!
# The recovery thread

Reference: `src/nvm_malloc.c` (`nvm_recovery_thread`).

The two nested loops of the thread are one machine: `ScanPc` says at the head of which loop the thread
stands and `scanStep` is one iteration.  What holds at every loop head is proved along the machine, and
`scanChunks_run` carries it over to the loops.
-/

namespace NvmMalloc

open Memory CrashM

/-! ## Iterations -/

/-- The body of the page loop at the header at `h`; it returns by how much `j` grows. -/
def scanPage (h : ℕ) : Prog ℕ := do
  let st ← loadField h stateF
  if getUsage st = usageFree then
    let block ← arenaCreateBlockHeader h
    addFreePagerun block.arena block
    loadField h nPagesF
  else if getUsage st = usageRun then
    scanRun h
    pure 1
  else
    loadField h nPagesF

/-- Where the thread stands: at the head of the chunk loop, at the head of the page loop, or at its
end. -/
inductive ScanPc where
  | chunk (i : ℕ)
  | page (i j : ℕ)
  | done
deriving DecidableEq

/-- One iteration of the loop at whose head the thread stands. -/
def scanStep (nChunks : ℕ) : ScanPc → Prog ScanPc
  | .chunk i =>
    if i < nChunks then do
      let st ← loadField (i * chunkSize) stateF
      if getUsage st = usageArena then
        pure (.page i 1)
      else
        let n ← loadField (i * chunkSize) nChunksF
        pure (.chunk (i + n))
    else
      pure .done
  | .page i j =>
    if j < chunkSize / blockSize then do
      let n ← scanPage (i * chunkSize + j * blockSize)
      pure (.page i (j + n))
    else
      pure (.chunk (i + 1))
  | .done => pure .done

/-- The thread gets from one loop head to the next one. -/
def ScanStep (nChunks : ℕ) (x y : ScanPc × World) : Prop :=
  x.1 ≠ .done ∧ (scanStep nChunks x.1 x.2).2 = .ok y

/-- The thread gets from one loop head to another one. -/
abbrev ScanReaches (nChunks : ℕ) : ScanPc × World → ScanPc × World → Prop :=
  Relation.ReflTransGen (ScanStep nChunks)

section

variable {α β : Type} {p : Prog α} {f : α → Prog β} {w w' : World} {nChunks i j fuel pageFuel : ℕ}

/-- The page loop is its first iteration and the rest. -/
theorem scanPages_succ {c : ℕ} (hj : j < chunkSize / blockSize) :
    scanPages c (fuel + 1) j = scanPage (c + j * blockSize) >>= fun n => scanPages c fuel (j + n) := by
  rw [scanPages, if_pos hj]
  unfold scanPage
  rw [bind_assoc]
  refine bind_congr fun st => ?_
  split
  · simp only [bind_assoc]
  · split
    · simp only [bind_assoc, pure_bind]
    · rfl

/-- A read returns the field and changes nothing. -/
theorem loadField_result {h : ℕ} {g : NvmField} {k : ℕ → Prog α} :
    ((loadField h g >>= k) w).2 = (k (field w.nvm.mem h g) w).2 := rfl

/-- An iteration of the chunk loop at an arena chunk. -/
theorem scanChunks_arena (hi : i < nChunks)
    (husage : getUsage (field w.nvm.mem (i * chunkSize) stateF) = usageArena) :
    (scanChunks pageFuel nChunks (fuel + 1) i w).2 =
      ((scanPages (i * chunkSize) pageFuel 1 >>= fun _ =>
        scanChunks pageFuel nChunks fuel (i + 1)) w).2 := by
  rw [scanChunks, if_pos hi, loadField_result, if_pos husage]

/-- An iteration of the chunk loop at another chunk. -/
theorem scanChunks_skip (hi : i < nChunks)
    (husage : getUsage (field w.nvm.mem (i * chunkSize) stateF) ≠ usageArena) :
    (scanChunks pageFuel nChunks (fuel + 1) i w).2 =
      (scanChunks pageFuel nChunks fuel (i + field w.nvm.mem (i * chunkSize) nChunksF) w).2 := by
  rw [scanChunks, if_pos hi, loadField_result, if_neg husage, loadField_result]

theorem scanStep_arena (hi : i < nChunks)
    (husage : getUsage (field w.nvm.mem (i * chunkSize) stateF) = usageArena) :
    (scanStep nChunks (.chunk i) w).2 = .ok (.page i 1, w) := by
  rw [scanStep, if_pos hi, loadField_result, if_pos husage]
  rfl

theorem scanStep_skip (hi : i < nChunks)
    (husage : getUsage (field w.nvm.mem (i * chunkSize) stateF) ≠ usageArena) :
    (scanStep nChunks (.chunk i) w).2 =
      .ok (.chunk (i + field w.nvm.mem (i * chunkSize) nChunksF), w) := by
  rw [scanStep, if_pos hi, loadField_result, if_neg husage, loadField_result]
  rfl

theorem scanStep_end (hi : ¬ i < nChunks) : (scanStep nChunks (.chunk i) w).2 = .ok (.done, w) := by
  rw [scanStep, if_neg hi]
  rfl

theorem scanStep_page (hj : j < chunkSize / blockSize) {n : ℕ}
    (hpage : (scanPage (i * chunkSize + j * blockSize) w).2 = .ok (n, w')) :
    (scanStep nChunks (.page i j) w).2 = .ok (.page i (j + n), w') := by
  rw [scanStep, if_pos hj, bind_result]
  exact ⟨n, w', hpage, rfl⟩

theorem scanStep_pageEnd (hj : ¬ j < chunkSize / blockSize) :
    (scanStep nChunks (.page i j) w).2 = .ok (.chunk (i + 1), w) := by
  rw [scanStep, if_neg hj]
  rfl

/-- A page loop that ends is a run of the machine. -/
theorem scanPages_run (h : (scanPages (i * chunkSize) fuel j w).2 = .ok ((), w')) :
    ScanReaches nChunks (.page i j, w) (.chunk (i + 1), w') := by
  induction fuel generalizing j w with
  | zero => exact absurd h (by simp [scanPages, CrashM.throw])
  | succ fuel ih =>
    by_cases hj : j < chunkSize / blockSize
    · rw [scanPages_succ hj, bind_result] at h
      obtain ⟨n, w₁, hpage, hrest⟩ := h
      exact .head ⟨by simp, scanStep_page hj hpage⟩ (ih hrest)
    · rw [scanPages, if_neg hj] at h
      have hw : w = w' := by
        have hpure : Except.ok ((), w) = (.ok ((), w') : Except Stop (Unit × World)) := h
        simpa using hpure
      subst hw
      exact .single ⟨by simp, scanStep_pageEnd hj⟩

/-- **A thread that ends is a run of the machine.** -/
theorem scanChunks_run (h : (scanChunks pageFuel nChunks fuel i w).2 = .ok ((), w')) :
    ScanReaches nChunks (.chunk i, w) (.done, w') := by
  induction fuel generalizing i w with
  | zero => exact absurd h (by simp [scanChunks, CrashM.throw])
  | succ fuel ih =>
    by_cases hi : i < nChunks
    · by_cases husage : getUsage (field w.nvm.mem (i * chunkSize) stateF) = usageArena
      · rw [scanChunks_arena hi husage, bind_result] at h
        obtain ⟨_, w₁, hpages, hrest⟩ := h
        exact .head ⟨by simp, scanStep_arena hi husage⟩ ((scanPages_run hpages).trans (ih hrest))
      · rw [scanChunks_skip hi husage] at h
        exact .head ⟨by simp, scanStep_skip hi husage⟩ (ih h)
    · rw [scanChunks, if_neg hi] at h
      have hw : w = w' := by
        have hpure : Except.ok ((), w) = (.ok ((), w') : Except Stop (Unit × World)) := h
        simpa using hpure
      subst hw
      exact .single ⟨by simp, scanStep_end hi⟩

end

/-! ## Progress -/

/-- An iteration gets ahead in its loop. -/
def ScanPc.Advances : ScanPc → ScanPc → Prop
  | .chunk i, .chunk i' => i < i'
  | .page i j, .page i' j' => i' = i ∧ j < j'
  | _, _ => True

section

variable {I : ScanPc → World → Prop} {w : World} {nChunks i j fuel pageFuel : ℕ}

/-- The page loop ends if its iterations get ahead. -/
theorem scanPages_total (hstep : ∀ pc w, I pc w → pc ≠ .done → ∃ pc' w',
      (scanStep nChunks pc w).2 = .ok (pc', w') ∧ I pc' w' ∧ pc.Advances pc')
    (h : I (.page i j) w) (hfuel : chunkSize / blockSize - j < fuel) :
    ∃ w', (scanPages (i * chunkSize) fuel j w).2 = .ok ((), w') ∧ I (.chunk (i + 1)) w' := by
  induction fuel generalizing j w with
  | zero => exact absurd hfuel (Nat.not_lt_zero _)
  | succ fuel ih =>
    obtain ⟨pc', w₁, hrun, hI, hadv⟩ := hstep _ w h (by simp)
    by_cases hj : j < chunkSize / blockSize
    · rw [scanStep, if_pos hj, bind_result] at hrun
      obtain ⟨n, w₂, hpage, hrun⟩ := hrun
      have hpure : Except.ok (ScanPc.page i (j + n), w₂) =
        (.ok (pc', w₁) : Except Stop (ScanPc × World)) := hrun
      simp only [Except.ok.injEq, Prod.mk.injEq] at hpure
      obtain ⟨rfl, rfl⟩ := hpure
      obtain ⟨w', hrest, hI'⟩ := ih hI (by have := hadv.2; omega)
      refine ⟨w', ?_, hI'⟩
      rw [scanPages_succ hj, bind_result]
      exact ⟨n, w₂, hpage, hrest⟩
    · rw [scanStep_pageEnd hj] at hrun
      simp only [Except.ok.injEq, Prod.mk.injEq] at hrun
      obtain ⟨rfl, rfl⟩ := hrun
      refine ⟨w, ?_, hI⟩
      rw [scanPages, if_neg hj]
      rfl

/-- **The thread ends if its iterations get ahead.** -/
theorem scanChunks_total (hstep : ∀ pc w, I pc w → pc ≠ .done → ∃ pc' w',
      (scanStep nChunks pc w).2 = .ok (pc', w') ∧ I pc' w' ∧ pc.Advances pc')
    (h : I (.chunk i) w) (hpage : chunkSize / blockSize ≤ pageFuel) (hfuel : nChunks - i < fuel) :
    ∃ w', (scanChunks pageFuel nChunks fuel i w).2 = .ok ((), w') ∧ I .done w' := by
  induction fuel generalizing i w with
  | zero => exact absurd hfuel (Nat.not_lt_zero _)
  | succ fuel ih =>
    obtain ⟨pc', w₁, hrun, hI, hadv⟩ := hstep _ w h (by simp)
    by_cases hi : i < nChunks
    · by_cases husage : getUsage (field w.nvm.mem (i * chunkSize) stateF) = usageArena
      · rw [scanStep_arena hi husage] at hrun
        simp only [Except.ok.injEq, Prod.mk.injEq] at hrun
        obtain ⟨rfl, rfl⟩ := hrun
        obtain ⟨w₂, hpages, hI₂⟩ := scanPages_total hstep hI
          (show chunkSize / blockSize - 1 < pageFuel by
            have : chunkSize / blockSize = 1024 := by decide
            omega)
        obtain ⟨w', hrest, hI'⟩ := ih hI₂ (by omega)
        refine ⟨w', ?_, hI'⟩
        rw [scanChunks_arena hi husage, bind_result]
        exact ⟨(), w₂, hpages, hrest⟩
      · rw [scanStep_skip hi husage] at hrun
        simp only [Except.ok.injEq, Prod.mk.injEq] at hrun
        obtain ⟨rfl, rfl⟩ := hrun
        have hlt : i < i + field w.nvm.mem (i * chunkSize) nChunksF := hadv
        obtain ⟨w', hrest, hI'⟩ := ih hI (by omega)
        exact ⟨w', by rw [scanChunks_skip hi husage]; exact hrest, hI'⟩
    · rw [scanStep_end hi] at hrun
      simp only [Except.ok.injEq, Prod.mk.injEq] at hrun
      obtain ⟨rfl, rfl⟩ := hrun
      refine ⟨w, ?_, hI⟩
      rw [scanChunks, if_neg hi]
      rfl

end

/-! ## One page -/

/-- The thread builds a VHeader for the run header on page `p`. -/
def NeedsRun (m : Mem) (cur p : ℕ) : Prop :=
  usageAt m p = usageRun ∧ field m (4096 * p) versionF < cur

instance (m : Mem) (cur p : ℕ) : Decidable (NeedsRun m cur p) := inferInstanceAs (Decidable (_ ∧ _))

/-- The nodes that the thread inserts at page `p`. -/
def scannedNodes (m : Mem) (p : ℕ) : List ArenaBlock :=
  if usageAt m p = usageFree then [blockNode m p] else []

/-- The byte `x` is one the thread writes into the run header on page `p`: `vdata` or `version`. -/
def ScanByte (p x : ℕ) : Prop :=
  4096 * p + 8 ≤ x ∧ x < 4096 * p + 16 ∨ 4096 * p + 60 ≤ x ∧ x < 4096 * p + 64

/-- What one iteration of the page loop does to the world. -/
structure Scans (w w' : World) (p : ℕ) : Prop where
  mem : ∀ x, ¬ (NeedsRun w.nvm.mem w.currentVersion p ∧ ScanByte p x) → w'.nvm.mem x = w.nvm.mem x
  nvm : w'.nvm = { w.nvm with mem := w'.nvm.mem }
  nvmStart : w'.nvmStart = w.nvmStart
  currentVersion : w'.currentVersion = w.currentVersion
  ot : w'.ot = w.ot
  freeChunks : w'.freeChunks = w.freeChunks
  bin : w'.bin = w.bin
  pages : ∀ a, (w'.arenas a).freePageruns.toList.Perm
    ((scannedNodes w.nvm.mem p).filter (fun x => x.arena = a) ++ (w.arenas a).freePageruns.toList)
  old : ∀ k < w.nVheaders, w'.vheaders k = w.vheaders k
  count : w'.nVheaders = w.nVheaders + if NeedsRun w.nvm.mem w.currentVersion p then 1 else 0
  new : NeedsRun w.nvm.mem w.currentVersion p →
    Describes w'.nvm.mem p (w'.vheaders w.nVheaders) ∧
      field w'.nvm.mem (4096 * p) vdataF = w.nVheaders % 2 ^ 64 ∧
      field w'.nvm.mem (4096 * p) versionF = w.currentVersion % 2 ^ 32

section

variable {w : World} {p : ℕ}

/-- A header that is skipped. -/
theorem scans_skip (hfree : usageAt w.nvm.mem p ≠ usageFree)
    (hrun : ¬ NeedsRun w.nvm.mem w.currentVersion p) : Scans w w p := by
  refine ⟨fun _ _ => rfl, rfl, rfl, rfl, rfl, rfl, rfl, fun a => ?_, fun _ _ => rfl, ?_,
    fun h => absurd h hrun⟩
  · rw [scannedNodes, if_neg hfree]
    exact List.Perm.refl _
  · rw [if_neg hrun]
    rfl

/-- A free page run is inserted. -/
theorem scans_free (hfree : usageAt w.nvm.mem p = usageFree) :
    Scans w (w.setTree (blockNode w.nvm.mem p).arena
      ((w.arenas (blockNode w.nvm.mem p).arena).freePageruns.treeAdd ArenaBlock.nPages
        (blockNode w.nvm.mem p))) p := by
  have hrun : ¬ NeedsRun w.nvm.mem w.currentVersion p := by
    rintro ⟨husage, -⟩
    rw [hfree] at husage
    exact absurd husage (by decide)
  refine ⟨fun _ _ => rfl, rfl, rfl, rfl, rfl, rfl, ?_, fun a => ?_, fun _ _ => rfl, ?_,
    fun h => absurd h hrun⟩
  · funext ab
    simp only [World.bin, World.setTree, World.setArena, Function.update_apply]
    split
    · rename_i h
      rw [h]
    · rfl
  · rw [scannedNodes, if_pos hfree]
    simp only [World.setTree, World.setArena, Function.update_apply]
    split
    · rename_i h
      subst h
      simp only [decide_true, List.filter_cons_of_pos, List.filter_nil]
      exact SearchTree.treeAdd_perm ..
    · rename_i h
      simp [Ne.symm h]
  · rw [if_neg hrun]
    rfl

/-- The memory after the thread has entered VHeader `run` into the run header at `h`. -/
def enterRun (m : Mem) (h run cur : ℕ) : Mem :=
  store (store m (h + vdataF.off) vdataF.width run) (h + versionF.off) versionF.width cur

/-- A run of an earlier process gets a VHeader. -/
theorem scans_run (hrun : NeedsRun w.nvm.mem w.currentVersion p)
    (hbin : BinExists w.nvm.mem (4096 * p)) :
    Scans w ((w.addRun (headerRun w.nvm.mem (4096 * p))).setMem
      (enterRun w.nvm.mem (4096 * p) w.nVheaders w.currentVersion)) p := by
  have hfree : usageAt w.nvm.mem p ≠ usageFree := by
    rw [hrun.1]
    decide
  have hmem : ∀ x, ¬ ScanByte p x →
      enterRun w.nvm.mem (4096 * p) w.nVheaders w.currentVersion x = w.nvm.mem x := by
    intro x hx
    unfold ScanByte at hx
    unfold enterRun
    rw [store_eqOff _ _ _ _ x (by simp only [versionF]; omega),
      store_eqOff _ _ _ _ x (by simp only [vdataF]; omega)]
  refine ⟨fun x hx => hmem x fun h => hx ⟨hrun, h⟩, rfl, rfl, rfl, rfl, rfl, rfl, fun a => ?_,
    fun k hk => ?_, ?_, fun _ => ⟨?_, ?_, ?_⟩⟩
  · rw [scannedNodes, if_neg hfree]
    exact List.Perm.refl _
  · exact Function.update_of_ne (by omega) ..
  · rw [if_pos hrun]
    rfl
  · show Describes _ p (Function.update w.vheaders w.nVheaders (headerRun w.nvm.mem (4096 * p))
      w.nVheaders)
    rw [Function.update_self]
    have hslots : slotsPerRun (field w.nvm.mem (4096 * p) nBytesF) ≤ 63 := by
      have hpos := hbin.2.1
      exact slotsPerRun_le (by omega)
    refine (describes_headerRun w.nvm.mem p).congr (field_congr fun x hx hx' => hmem x ?_)
      (field_congr fun x hx hx' => hmem x ?_)
      (fun j hj => bitmapBit_congr (fun x hx hx' => hmem x ?_) hj) hslots
    · simp only [nBytesF] at hx hx'
      unfold ScanByte
      omega
    · simp only [runArenaIdF] at hx hx'
      unfold ScanByte
      omega
    · unfold ScanByte
      omega
  · show field (enterRun w.nvm.mem (4096 * p) w.nVheaders w.currentVersion) (4096 * p) vdataF = _
    unfold enterRun
    rw [field_store_of_ne (by decide), field_store_self]
    rfl
  · show field (enterRun w.nvm.mem (4096 * p) w.nVheaders w.currentVersion) (4096 * p) versionF = _
    unfold enterRun
    rw [field_store_self]
    rfl

/-- **One iteration of the page loop** at the header on page `p`. -/
theorem scanPage_located :
    Located (scanPage (4096 * p)) (fun _ => True)
      (fun n w' => n = pageStep w.nvm.mem p ∧ Scans w w' p ∧
        (NeedsRun w.nvm.mem w.currentVersion p → BinExists w.nvm.mem (4096 * p)))
      (fun e => e = .fault ∧ (usageAt w.nvm.mem p = usageFree ∧
          ¬ field w.nvm.mem (4096 * p) blockArenaIdF < initialArenas ∨
        NeedsRun w.nvm.mem w.currentVersion p ∧ ¬ BinExists w.nvm.mem (4096 * p))) w := by
  unfold scanPage
  rw [located_bind, located_loadField, located_ite, located_ite]
  refine ⟨fun hfree => ?_, fun hfree => ⟨fun hrun => ?_, fun hrun => ?_⟩⟩
  · -- a free page run: create and insert the node
    have hstep : pageStep w.nvm.mem p = field w.nvm.mem (4096 * p) nPagesF := by
      rw [pageStep, if_neg]
      unfold usageAt
      rw [hfree]
      decide
    unfold arenaCreateBlockHeader addFreePagerun
    simp only [located_bind, located_loadField, located_ite, located_pure, located_throw, located_modify]
    refine ⟨fun _ => ⟨hstep.symm, scans_free hfree, fun h => ?_⟩, fun h => ⟨trivial, Or.inl ⟨hfree, h⟩⟩⟩
    exact absurd (hfree.symm.trans h.1) (by decide)
  · have hstep : pageStep w.nvm.mem p = 1 := if_pos hrun
    unfold scanRun
    simp only [located_bind, located_loadField, located_get, located_ite, located_pure,
      located_arenaCreateRunHeader, located_storeField, located_persist, hstep, true_and]
    exact ⟨fun hver => ⟨fun hbin => ⟨fun _ => ⟨scans_run ⟨hrun, hver⟩ hbin, fun _ => hbin⟩,
      fun h => absurd rfl h⟩, fun hbin => Or.inr ⟨⟨hrun, hver⟩, hbin⟩⟩,
      fun hver => ⟨scans_skip hfree fun h => hver h.2, fun h => absurd h.2 hver⟩⟩
  · have hstep : pageStep w.nvm.mem p = field w.nvm.mem (4096 * p) nPagesF := if_neg hrun
    rw [located_loadField]
    exact ⟨hstep.symm, scans_skip hfree fun h => hrun h.1, fun h => absurd h.1 hrun⟩

end

/-! ## How the thread stops -/

section

variable {w : World} {nChunks fuel pageFuel i j : ℕ}

/-- Early stops of the page loop. -/
theorem scanPages_stops : Located (scanPages (i * chunkSize) fuel j) (fun _ => True)
    (fun _ _ => True) (fun e => e = .fault ∨ e = .diverges) w := by
  induction fuel generalizing j w with
  | zero => exact located_throw.mpr (Or.inr rfl)
  | succ fuel ih =>
    by_cases hj : j < chunkSize / blockSize
    · rw [scanPages_succ hj, located_bind]
      have haddr : i * chunkSize + j * blockSize = 4096 * (1024 * i + j) := by
        simp only [chunkSize, blockSize]
        omega
      rw [haddr]
      exact wp_mono scanPage_located (fun _ h => h) (fun n w' _ => ih) fun e he => Or.inl he.1
    · rw [scanPages, if_neg hj, located_pure]
      trivial

/-- Early stops of the chunk loop. -/
theorem scanChunks_stops : Located (scanChunks pageFuel nChunks fuel i) (fun _ => True)
    (fun _ _ => True) (fun e => e = .fault ∨ e = .diverges) w := by
  induction fuel generalizing i w with
  | zero => exact located_throw.mpr (Or.inr rfl)
  | succ fuel ih =>
    rw [scanChunks, located_ite]
    refine ⟨fun _ => ?_, fun _ => located_pure.mpr trivial⟩
    rw [located_bind, located_loadField, located_ite]
    refine ⟨fun _ => scanPages_stops.bind fun _ _ _ => ih, fun _ => ?_⟩
    rw [located_bind, located_loadField]
    exact ih

/-- The recovery thread contains no assertion. -/
theorem nvmRecoveryThread_no_assert : (nvmRecoveryThread fuel nChunks w).2 ≠ .error .assertFailed := by
  intro hstop
  rcases scanChunks_stops.stop hstop with h | h
  · exact absurd h (by decide)
  · exact absurd h (by decide)

end

/-! ## Loop heads and tiles -/

/-- The page on which the thread stands. -/
def ScanPc.pos (nChunks : ℕ) : ScanPc → ℕ
  | .chunk i => 1024 * i
  | .page i j => 1024 * i + j
  | .done => 1024 * nChunks

/-- The thread stands at the start of a tile, or at the end of the heap. -/
def ScanAt (L : Layout) (nChunks : ℕ) : ScanPc → Prop
  | .chunk i => i ≤ nChunks ∧ (i < nChunks → (L (1024 * i)).isSome)
  | .page i j => i < nChunks ∧ L (1024 * i) = some .arena ∧ 1 ≤ j ∧ j ≤ 1024 ∧
    (1024 * i + j < 1024 * nChunks → (L (1024 * i + j)).isSome)
  | .done => True

/-- The headers the thread meets are those of the layout. -/
structure ScanOk (L : Layout) (nChunks : ℕ) (w : World) : Prop where
  ok : L.Ok nChunks
  hdr : ∀ {p t}, L p = some t → HdrOk w.nvm.mem p t
  stuckRun : ∀ {p n}, L p = some (.stuck n) → usageAt w.nvm.mem p = usageRun →
    field w.nvm.mem (4096 * p) versionF < w.currentVersion

/-- One iteration: the thread steps over a chunk header or a huge region, deals with the tile of a page,
or makes no progress. -/
inductive ScanMove (L : Layout) (nChunks : ℕ) (pc : ScanPc) (w : World) (pc' : ScanPc) (w' : World) :
    Prop where
  | skip (hw : w' = w) (hle : pc.pos nChunks ≤ pc'.pos nChunks)
      (hnone : ∀ p t, L p = some t → pc.pos nChunks ≤ p → p < pc'.pos nChunks →
        p % 1024 = 0 ∧ ∀ n, t ≠ .stuck n)
      (hadv : pc.Advances pc')
  | page {p : ℕ} {t : Tile} (hp : L p = some t) (hunstuck : ∀ n, t ≠ .stuck n)
      (hpos : pc.pos nChunks = p) (hmod : p % 1024 ≠ 0) (hscan : Scans w w' p)
      (hnext : pc'.pos nChunks = p + t.len) (hadv : pc.Advances pc')
  | stuck {p n : ℕ} (hp : L p = some (.stuck n))
      (hscan : w' = w ∨ usageAt w.nvm.mem p ≠ usageRun ∧ Scans w w' p) (hsame : pc' = pc)

section

variable {L : Layout} {m m' : Mem} {w w' : World} {pc pc' : ScanPc} {nChunks p i j : ℕ} {t : Tile}

/-- The thread does not write the fields on which the order of a header depends. -/
theorem HdrOk.scan (h : HdrOk m p t)
    (heq : ∀ x, 4096 * p ≤ x → x < 4096 * p + 64 → ¬ ScanByte p x → m' x = m x) : HdrOk m' p t := by
  have hfield : ∀ f : NvmField, f.off + f.width ≤ 8 ∨ 16 ≤ f.off ∧ f.off + f.width ≤ 60 →
      field m' (4096 * p) f = field m (4096 * p) f := by
    intro f hf
    refine field_congr fun x hx hx' => heq x (by omega) (by omega) ?_
    unfold ScanByte
    omega
  have hst := hfield stateF (by decide)
  have hnc := hfield nChunksF (by decide)
  have hnp := hfield nPagesF (by decide)
  have hnb := hfield nBytesF (by decide)
  cases t with
  | arena =>
    simp only [HdrOk] at h ⊢
    rwa [hst]
  | huge n o =>
    obtain ⟨hn, hstate⟩ := h
    exact ⟨hnc.trans hn, hst ▸ hstate⟩
  | block n o =>
    obtain ⟨hn, ha, hstate⟩ := h
    refine ⟨hnp.trans hn, ?_, hst ▸ hstate⟩
    rwa [hfield blockArenaIdF (by decide)]
  | run k =>
    obtain ⟨hr, hstate, hidx⟩ := h
    refine ⟨?_, hst ▸ hstate, ?_⟩
    · unfold RunHdr at hr ⊢
      rwa [hnb, hfield runArenaIdF (by decide)]
    · rwa [hst, hnb, hfield bitIdxF (by decide)]
  | stuck n =>
    simp only [HdrOk, StuckHdr] at h ⊢
    rwa [hst, hnc, hnb, hnp]

/-- An iteration at one page leaves the headers of the others alone. -/
theorem Scans.eqOn_other (h : Scans w w' p) (hok : L.Ok nChunks) (hp : L p = some t) {q : ℕ} {u : Tile}
    (hq : L q = some u) (hqp : q ≠ p) : EqOn w.nvm.mem w'.nvm.mem (4096 * q) 64 := by
  have hd := hok.disjoint hp hq (Ne.symm hqp)
  have hpos := hok.len_pos hp
  have hpos' := hok.len_pos hq
  refine fun x hx hx' => h.mem x ?_
  rintro ⟨-, hbyte⟩
  unfold ScanByte at hbyte
  omega

/-- The headers stay in order. -/
theorem ScanOk.scans (h : ScanOk L nChunks w) (hp : L p = some t)
    (hunstuck : ∀ n, t = .stuck n → usageAt w.nvm.mem p ≠ usageRun) (hscan : Scans w w' p) :
    ScanOk L nChunks w' where
  ok := h.ok
  hdr {q u} hq := by
    by_cases hqp : q = p
    · subst hqp
      exact (h.hdr hq).scan fun x _ _ hx => hscan.mem x fun hx' => hx hx'.2
    · exact (h.hdr hq).congr (hscan.eqOn_other h.ok hp hq hqp)
  stuckRun {q n} hq husage := by
    rw [hscan.currentVersion]
    have heq : EqOn w.nvm.mem w'.nvm.mem (4096 * q) 64 := by
      by_cases hqp : q = p
      · subst hqp
        rw [hp, Option.some.injEq] at hq
        exact fun x _ _ => hscan.mem x fun hx => hunstuck n hq hx.1.1
      · exact hscan.eqOn_other h.ok hp hq hqp
    unfold usageAt at husage
    rw [field_eqOn heq (by decide)] at husage ⊢
    exact h.stuckRun hq husage

/-- What the chunk loop finds at the start of a tile. -/
theorem ScanOk.chunk_cases (h : ScanOk L nChunks w) (hp : L (1024 * i) = some t) :
    (t = .arena ∧ getUsage (field w.nvm.mem (i * chunkSize) stateF) = usageArena) ∨
      (getUsage (field w.nvm.mem (i * chunkSize) stateF) ≠ usageArena ∧
        ((∃ o, t = .huge (field w.nvm.mem (i * chunkSize) nChunksF) o) ∨
          (∃ n, t = .stuck n) ∧ field w.nvm.mem (i * chunkSize) nChunksF = 0)) := by
  have haddr : i * chunkSize = 4096 * (1024 * i) := by
    simp only [chunkSize]
    omega
  have hhdr := h.hdr hp
  have hfits := h.ok.fits hp
  rw [haddr]
  cases t with
  | arena => exact Or.inl ⟨rfl, hhdr⟩
  | huge n o =>
    have husage := hhdr.usage (by simp)
    exact Or.inr ⟨fun hu => absurd (husage.1.mp hu) (by simp), Or.inl ⟨o, by rw [hhdr.1]⟩⟩
  | stuck n =>
    simp only [HdrOk, StuckHdr, Nat.mul_mod_right, if_true] at hhdr
    exact Or.inr ⟨hhdr.1, Or.inr ⟨⟨n, rfl⟩, hhdr.2⟩⟩
  | block n o =>
    simp only [Tile.Fits] at hfits
    omega
  | run k =>
    simp only [Tile.Fits] at hfits
    omega

/-- What the page loop finds at the start of a tile. -/
theorem ScanOk.page_cases (h : ScanOk L nChunks w) (hp : L p = some t) (hmod : p % 1024 ≠ 0) :
    ((∀ n, t ≠ .stuck n) ∧ pageStep w.nvm.mem p = t.len ∧ p % 1024 + t.len ≤ 1024 ∧
      (usageAt w.nvm.mem p = usageRun → RunHdr w.nvm.mem (4096 * p))) ∨
    ∃ n, t = .stuck n ∧
      (usageAt w.nvm.mem p = usageRun ∧ field w.nvm.mem (4096 * p) nBytesF = 0 ∨
        usageAt w.nvm.mem p ≠ usageRun ∧ pageStep w.nvm.mem p = 0) := by
  have hhdr := h.hdr hp
  have hfits := h.ok.fits hp
  cases t with
  | arena =>
    simp only [Tile.Fits] at hfits
    omega
  | huge n o =>
    simp only [Tile.Fits] at hfits
    omega
  | block n o =>
    have husage : usageAt w.nvm.mem p ≠ usageRun := fun hu => by
      obtain ⟨k, hk⟩ := (hhdr.usage (by simp)).2.mp hu
      exact absurd hk (by simp)
    refine Or.inl ⟨by simp, ?_, hfits.2, fun hu => absurd hu husage⟩
    rw [pageStep, if_neg husage, hhdr.1]
    rfl
  | run k =>
    have husage : usageAt w.nvm.mem p = usageRun := (hhdr.usage (by simp)).2.mpr ⟨k, rfl⟩
    refine Or.inl ⟨by simp, ?_, ?_, fun _ => hhdr.1⟩
    · rw [pageStep, if_pos husage]
      rfl
    · rw [Tile.len_run]
      omega
  | stuck n =>
    simp only [HdrOk, StuckHdr, if_neg hmod] at hhdr
    refine Or.inr ⟨n, rfl, ?_⟩
    rcases hhdr with hrun | ⟨husage, hpages⟩
    · exact Or.inl hrun
    · refine Or.inr ⟨husage, ?_⟩
      rw [← hpages]
      exact if_neg husage

/-- A free page run has an arena. -/
theorem ScanOk.arenaId_lt (h : ScanOk L nChunks w) (hp : L p = some t) (hmod : p % 1024 ≠ 0)
    (hunstuck : ∀ n, t ≠ .stuck n) (hfree : usageAt w.nvm.mem p = usageFree) :
    field w.nvm.mem (4096 * p) blockArenaIdF < initialArenas := by
  have hhdr := h.hdr hp
  have hfits := h.ok.fits hp
  cases t with
  | arena =>
    simp only [Tile.Fits] at hfits
    omega
  | huge n o =>
    simp only [Tile.Fits] at hfits
    omega
  | block n o => exact hhdr.2.1
  | run k =>
    have husage : usageAt w.nvm.mem p = usageRun := (hhdr.usage (by simp)).2.mpr ⟨k, rfl⟩
    exact absurd (hfree.symm.trans husage) (by decide)
  | stuck n => exact absurd rfl (hunstuck n)

/-- **Every iteration moves from a tile to the next one**, except at a header without a width. -/
theorem ScanOk.step (h : ScanOk L nChunks w) (hat : ScanAt L nChunks pc) (hdone : pc ≠ .done)
    (hrun : (scanStep nChunks pc w).2 = .ok (pc', w')) :
    ScanAt L nChunks pc' ∧ ScanMove L nChunks pc w pc' w' := by
  have hpages : chunkSize / blockSize = 1024 := by decide
  cases pc with
  | done => exact absurd rfl hdone
  | chunk i =>
    obtain ⟨hle, htile⟩ := hat
    by_cases hi : i < nChunks
    · obtain ⟨t, ht⟩ := Option.isSome_iff_exists.mp (htile hi)
      have hend := h.ok.add_len_le ht
      rcases h.chunk_cases ht with ⟨rfl, husage⟩ | ⟨husage, ⟨o, rfl⟩ | ⟨⟨n, rfl⟩, hn⟩⟩
      · rw [scanStep_arena hi husage] at hrun
        simp only [Except.ok.injEq, Prod.mk.injEq] at hrun
        obtain ⟨rfl, rfl⟩ := hrun
        refine ⟨⟨hi, ht, by omega, by omega, fun hlt => ?_⟩,
          .skip rfl ?_ (fun p u hu hlo hhi => ?_) trivial⟩
        · exact Option.isSome_iff_exists.mpr (h.ok.next ht (by rw [Tile.len_arena]; exact hlt))
        · simp only [ScanPc.pos]
          omega
        · simp only [ScanPc.pos] at hlo hhi
          obtain rfl : p = 1024 * i := by omega
          rw [ht, Option.some.injEq] at hu
          exact ⟨Nat.mul_mod_right 1024 i, by simp [← hu]⟩
      · rw [scanStep_skip hi husage] at hrun
        simp only [Except.ok.injEq, Prod.mk.injEq] at hrun
        obtain ⟨rfl, rfl⟩ := hrun
        have hpos := h.ok.len_pos ht
        rw [Tile.len_huge] at hend hpos
        refine ⟨⟨by omega, fun hlt => ?_⟩, .skip rfl ?_ (fun p u hu hlo hhi => ?_) ?_⟩
        · have hnext := h.ok.next ht (by rw [Tile.len_huge]; omega)
          rw [Tile.len_huge, ← Nat.mul_add] at hnext
          exact Option.isSome_iff_exists.mpr hnext
        · simp only [ScanPc.pos]
          omega
        · -- inside the region no other tile starts
          simp only [ScanPc.pos] at hlo hhi
          by_cases hpe : p = 1024 * i
          · subst hpe
            rw [ht, Option.some.injEq] at hu
            exact ⟨Nat.mul_mod_right 1024 i, by simp [← hu]⟩
          · rw [h.ok.none_inside ht (by omega) (by rw [Tile.len_huge]; omega)] at hu
            exact absurd hu (by simp)
        · simp only [ScanPc.Advances]
          omega
      · rw [scanStep_skip hi husage, hn, Nat.add_zero] at hrun
        simp only [Except.ok.injEq, Prod.mk.injEq] at hrun
        obtain ⟨rfl, rfl⟩ := hrun
        exact ⟨⟨hle, htile⟩, .stuck ht (Or.inl rfl) rfl⟩
    · rw [scanStep_end hi] at hrun
      simp only [Except.ok.injEq, Prod.mk.injEq] at hrun
      obtain ⟨rfl, rfl⟩ := hrun
      have hi' : i = nChunks := by omega
      subst hi'
      exact ⟨trivial, .skip rfl le_rfl (fun p t _ hlo hhi => by
        simp only [ScanPc.pos] at hlo hhi
        omega) trivial⟩
  | page i j =>
    obtain ⟨hi, harena, hlo, hhi, htile⟩ := hat
    by_cases hj : j < 1024
    · rw [scanStep, if_pos (by rw [hpages]; exact hj), bind_result] at hrun
      obtain ⟨n, w₁, hpage, hpure⟩ := hrun
      have hpc : Except.ok (ScanPc.page i (j + n), w₁) =
        (.ok (pc', w') : Except Stop (ScanPc × World)) := hpure
      simp only [Except.ok.injEq, Prod.mk.injEq] at hpc
      obtain ⟨rfl, rfl⟩ := hpc
      have haddr : i * chunkSize + j * blockSize = 4096 * (1024 * i + j) := by
        simp only [chunkSize, blockSize]
        omega
      rw [haddr] at hpage
      obtain ⟨rfl, hscan, hbin⟩ := scanPage_located.result hpage
      obtain ⟨t, ht⟩ := Option.isSome_iff_exists.mp (htile (by omega))
      have hmod : (1024 * i + j) % 1024 ≠ 0 := by omega
      rcases h.page_cases ht hmod with ⟨hunstuck, hstep, hfits, -⟩ | ⟨n, rfl, hstuck⟩
      · have hpos := h.ok.len_pos ht
        have hend := h.ok.add_len_le ht
        rw [hstep]
        refine ⟨⟨hi, harena, by omega, by omega, fun hlt => ?_⟩,
          .page ht hunstuck rfl hmod hscan (Nat.add_assoc ..).symm ⟨rfl, by omega⟩⟩
        have hnext := h.ok.next ht (by omega)
        rw [Nat.add_assoc] at hnext
        exact Option.isSome_iff_exists.mpr hnext
      · rcases hstuck with ⟨husage, hbytes⟩ | ⟨husage, hstep⟩
        · have hpos := (hbin ⟨husage, h.stuckRun ht husage⟩).2.1
          rw [hbytes] at hpos
          exact absurd hpos (by decide)
        · rw [hstep]
          exact ⟨⟨hi, harena, hlo, hhi, htile⟩, .stuck ht (Or.inr ⟨husage, hscan⟩) rfl⟩
    · rw [scanStep_pageEnd (by rw [hpages]; exact hj)] at hrun
      simp only [Except.ok.injEq, Prod.mk.injEq] at hrun
      obtain ⟨rfl, rfl⟩ := hrun
      have hj' : j = 1024 := by omega
      subst hj'
      refine ⟨⟨hi, fun hlt => ?_⟩, .skip rfl (by simp only [ScanPc.pos]; omega)
        (fun p t _ hlo hhi => by simp only [ScanPc.pos] at hlo hhi; omega) trivial⟩
      have := htile (by omega)
      rwa [show 1024 * (i + 1) = 1024 * i + 1024 by omega]

/-- The headers stay in order. -/
theorem ScanMove.scanOk (hmove : ScanMove L nChunks pc w pc' w') (h : ScanOk L nChunks w) :
    ScanOk L nChunks w' := by
  cases hmove with
  | skip hw _ _ _ => exact hw ▸ h
  | page hp hunstuck _ _ hscan _ _ => exact h.scans hp (fun n hn => absurd hn (hunstuck n)) hscan
  | stuck hp hscan _ =>
    rcases hscan with rfl | ⟨husage, hscan⟩
    · exact h
    · exact h.scans hp (fun _ _ => husage) hscan

/-- **At every loop head the thread stands at a tile, and the headers are in order.** -/
theorem ScanOk.reaches {x : ScanPc × World} (h : ScanOk L nChunks w) (hat : ScanAt L nChunks pc)
    (hx : ScanReaches nChunks (pc, w) x) : ScanAt L nChunks x.1 ∧ ScanOk L nChunks x.2 := by
  induction hx with
  | refl => exact ⟨hat, h⟩
  | tail _ hstep ih =>
    obtain ⟨hat', hmove⟩ := ih.2.step ih.1 hstep.1 hstep.2
    exact ⟨hat', hmove.scanOk ih.2⟩

/-- An iteration stores into the version and VHeader fields of runs only. -/
theorem ScanMove.same (hmove : ScanMove L nChunks pc w pc' w') {x : ℕ}
    (hx : ∀ p t, L p = some t → ¬ ScanByte p x) : w'.nvm.mem x = w.nvm.mem x := by
  cases hmove with
  | skip hw _ _ _ => rw [hw]
  | page hp _ _ _ hscan _ _ => exact hscan.mem x fun h => hx _ _ hp h.2
  | stuck hp hscan _ =>
    rcases hscan with rfl | ⟨-, hscan⟩
    · rfl
    · exact hscan.mem x fun h => hx _ _ hp h.2

/-- So does the whole thread. -/
theorem ScanOk.reaches_same {y : ScanPc × World} (h : ScanOk L nChunks w) (hat : ScanAt L nChunks pc)
    (hy : ScanReaches nChunks (pc, w) y) {x : ℕ} (hx : ∀ p t, L p = some t → ¬ ScanByte p x) :
    y.2.nvm.mem x = w.nvm.mem x := by
  induction hy with
  | refl => rfl
  | tail hprev hstep ih =>
    obtain ⟨hat', hok⟩ := h.reaches hat hprev
    obtain ⟨-, hmove⟩ := hok.step hat' hstep.1 hstep.2
    rw [hmove.same hx, ih]

/-- **Without a header of no width every iteration returns.** -/
theorem ScanOk.returns (h : ScanOk L nChunks w) (hunstuck : ∀ p n, L p ≠ some (.stuck n))
    (hat : ScanAt L nChunks pc) : ∃ pc' w', (scanStep nChunks pc w).2 = .ok (pc', w') := by
  have hpages : chunkSize / blockSize = 1024 := by decide
  cases pc with
  | done => exact ⟨.done, w, rfl⟩
  | chunk i =>
    by_cases hi : i < nChunks
    · by_cases husage : getUsage (field w.nvm.mem (i * chunkSize) stateF) = usageArena
      · exact ⟨_, _, scanStep_arena hi husage⟩
      · exact ⟨_, _, scanStep_skip hi husage⟩
    · exact ⟨_, _, scanStep_end hi⟩
  | page i j =>
    obtain ⟨hi, harena, hlo, hhi, htile⟩ := hat
    by_cases hj : j < 1024
    · have haddr : i * chunkSize + j * blockSize = 4096 * (1024 * i + j) := by
        simp only [chunkSize, blockSize]
        omega
      obtain ⟨t, ht⟩ := Option.isSome_iff_exists.mp (htile (by omega))
      have hne : ∀ n, t ≠ .stuck n := fun n hn => hunstuck _ n (hn ▸ ht)
      have hmod : (1024 * i + j) % 1024 ≠ 0 := by omega
      cases hr : (scanPage (4096 * (1024 * i + j)) w).2 with
      | ok x => exact ⟨_, _, scanStep_page (by rw [hpages]; exact hj) (by rw [haddr]; exact hr)⟩
      | error e =>
        rcases (scanPage_located.stop hr).2 with ⟨hfree, hid⟩ | ⟨hrun, hbin⟩
        · exact absurd (h.arenaId_lt ht hmod hne hfree) hid
        · rcases h.page_cases ht hmod with ⟨-, -, -, hhdr⟩ | ⟨n, hn, -⟩
          · exact absurd (hhdr hrun.1).binExists hbin
          · exact absurd hn (hne n)
    · exact ⟨_, _, scanStep_pageEnd (by rw [hpages]; exact hj)⟩

/-- **Without a header of no width every iteration gets ahead.** -/
theorem ScanOk.progress (h : ScanOk L nChunks w) (hunstuck : ∀ p n, L p ≠ some (.stuck n))
    (hat : ScanAt L nChunks pc) (hdone : pc ≠ .done) : ∃ pc' w',
      (scanStep nChunks pc w).2 = .ok (pc', w') ∧
        (ScanAt L nChunks pc' ∧ ScanOk L nChunks w') ∧ pc.Advances pc' := by
  obtain ⟨pc', w', hrun⟩ := h.returns hunstuck hat
  obtain ⟨hat', hmove⟩ := h.step hat hdone hrun
  refine ⟨pc', w', hrun, ⟨hat', hmove.scanOk h⟩, ?_⟩
  cases hmove with
  | skip _ _ _ hadv => exact hadv
  | page _ _ _ _ _ _ hadv => exact hadv
  | stuck hp _ _ => exact absurd hp (hunstuck _ _)

/-- Where the thread starts. -/
theorem scanAt_start (hok : L.Ok nChunks) : ScanAt L nChunks (.chunk 0) := by
  refine ⟨Nat.zero_le _, fun hpos => ?_⟩
  exact Option.isSome_iff_exists.mpr (hok.first hpos)

/-- **Without a header of no width the thread ends.** -/
theorem ScanOk.terminates (h : ScanOk L nChunks w) (hunstuck : ∀ p n, L p ≠ some (.stuck n)) :
    ∃ fuel w', 20 ≤ fuel ∧ (nvmRecoveryThread fuel nChunks w).2 = .ok ((), w') := by
  have hthread : ∃ w', (scanChunks (nChunks + 1024) nChunks (nChunks + 1024) 0 w).2 = .ok ((), w') ∧
      ScanAt L nChunks .done ∧ ScanOk L nChunks w' := by
    refine scanChunks_total (I := fun pc w => ScanAt L nChunks pc ∧ ScanOk L nChunks w)
      (fun pc w hI hdone => hI.2.progress hunstuck hI.1 hdone) ⟨scanAt_start h.ok, h⟩ ?_ (by omega)
    have hpages : chunkSize / blockSize = 1024 := by decide
    omega
  obtain ⟨w', hrun, -⟩ := hthread
  exact ⟨nChunks + 1024, w', by omega, hrun⟩

end

/-! ## From the log loop to the thread -/

section

variable {P : Process} {L : Layout} {p₀ n : ℕ} {img : Nvm} {w : World}

/-- After the log loop the headers are those of the layout. -/
theorem LogInv.scanOk (h : LogInv P L p₀ img n w) (himg : ImgInv L p₀ img) :
    ScanOk L img.nextChunk w where
  ok := himg.ok
  hdr hp := h.hdrOk himg hp
  stuckRun {p k} hp husage := by
    have hnamed : ¬ NamedBefore img n p := fun hnamed => absurd (h.done hp hnamed) id
    have heq := h.same hp hnamed
    unfold usageAt at husage
    rw [field_eqOn heq (by decide)] at husage ⊢
    rw [h.currentVersion]
    exact himg.stuckRun hp husage

end

end NvmMalloc
