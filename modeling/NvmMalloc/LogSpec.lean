import NvmMalloc.ReplaySpec

/-!
# The log loop

Reference: `src/nvm_malloc.c` (`nvm_initialize_recovered`).

The log names tiles, possibly several times, and at most one of their headers is in transition.  `LogInv`
is the state after a prefix of the log: the named headers are redone, the others and all bytes
outside the headers are as the crash left them, except for the link words of the interrupted call.
-/

namespace NvmMalloc

open Memory CrashM

/-! ## What is redone -/

/-- The node of the free page run on page `p`. -/
def blockNode (m : Mem) (p : ℕ) : ArenaBlock :=
  ⟨4096 * p, field m (4096 * p) nPagesF % 2 ^ 16, field m (4096 * p) blockArenaIdF⟩

/-- The node of the free huge region on page `p`. -/
def hugeNode (m : Mem) (p : ℕ) : Huge := ⟨4096 * p, field m (4096 * p) nChunksF⟩

/-- What the log loop does for a tile beside settling its header: the words it stores and the nodes it
hands to the free pools. -/
structure Redo where
  words : List (ℕ × ℕ)
  pages : List ArenaBlock
  chunks : List Huge

/-- Nothing is redone. -/
def Redo.nothing : Redo := ⟨[], [], []⟩

/-- What the log loop redoes for the tile on page `p`. -/
def redo (nvmStart : ℕ) (m : Mem) (p : ℕ) (t : Tile) : Redo where
  words := redoneWords nvmStart m p t.on
  pages := if field m (4096 * p) stateF = usageBlock + stateFreeing then [blockNode m p] else []
  chunks := if field m (4096 * p) stateF = usageHuge + stateFreeing then [hugeNode m p] else []

/-- The header of a tile once the log loop is through with it. -/
def TileRedone (cur : ℕ) (m₀ m : Mem) (p : ℕ) : Tile → Prop
  | .huge _ _ | .block _ _ =>
    (∀ x, 4096 * p + 1 ≤ x → x < 4096 * p + 8 ∨ 4096 * p + 40 ≤ x → x < 4096 * p + 64 → m x = m₀ x) ∧
      field m (4096 * p) stateF = redoneState (field m₀ (4096 * p) stateF)
  | .run _ => RunRedone cur m₀ m (4096 * p)
  | .arena | .stuck _ => False

section

variable {m m₀ m₁ m₂ : Mem} {p cur nvmStart st : ℕ} {t : Tile}

theorem redoneState_redoneState : redoneState (redoneState st) = redoneState st := by
  unfold redoneState
  split
  · rfl
  · rename_i hf
    split
    · rw [if_neg, if_neg]
      all_goals
        simp only [getState, getUsage, stateInitialized, stateActivating, stateFreeing]
        omega
    · rfl

/-- A state that is not in transition is kept. -/
theorem redoneState_of_settled (hs : Settled m p) :
    redoneState (field m (4096 * p) stateF) = field m (4096 * p) stateF := by
  rw [redoneState, if_neg hs.2.1, if_neg hs.2.2.2]

theorem redoneBit_eqOn {h j : ℕ} (heq : EqOn m m₁ h 64) (hj : j < 64) :
    redoneBit m₁ h j = redoneBit m h j := by
  unfold redoneBit
  rw [field_eqOn heq (by decide), field_eqOn heq (by decide), bitmapBit_eqOn heq hj]

/-- What is redone depends on the header line only. -/
theorem redo_eqOn (heq : EqOn m m₁ (4096 * p) 64) : redo nvmStart m₁ p t = redo nvmStart m p t := by
  have hst := field_eqOn (f := stateF) heq (by decide)
  have hwords : redoneWords nvmStart m₁ p t.on = redoneWords nvmStart m p t.on := by
    have hon : 1 ≤ t.on ∧ t.on + 32 ≤ 64 := by cases t <;> simp [Tile.on]
    have hpend : Pending m₁ p ↔ Pending m p := by rw [Pending, Pending, hst]
    rw [redoneWords, redoneWords, replayedWords, replayedWords,
      recordedWords_congr (heq.mono (by omega) (by omega))]
    exact if_congr hpend rfl rfl
  unfold redo blockNode hugeNode
  rw [hwords, hst, field_eqOn heq (by decide), field_eqOn heq (by decide), field_eqOn heq (by decide)]

/-- Nothing is redone for a header that is not in transition. -/
theorem redo_of_settled (hpend : ¬ Pending m p) : redo nvmStart m p t = Redo.nothing := by
  have hne : ∀ u, field m (4096 * p) stateF ≠ 16 * u + stateFreeing := by
    intro u hst
    refine hpend (Or.inl ?_)
    rw [hst]
    simp only [getState, stateFreeing]
    omega
  have hblock : field m (4096 * p) stateF ≠ usageBlock + stateFreeing := hne 3
  have hhuge : field m (4096 * p) stateF ≠ usageHuge + stateFreeing := hne 5
  rw [redo, redoneWords, if_neg hpend, if_neg hblock, if_neg hhuge]
  rfl

namespace TileRedone

theorem congr_left (h : TileRedone cur m₁ m p t) (heq : EqOn m₀ m₁ (4096 * p) 64) :
    TileRedone cur m₀ m p t := by
  have hst := field_eqOn (f := stateF) heq (by decide)
  cases t with
  | arena => exact h
  | stuck n => exact h
  | huge n o =>
    refine ⟨fun x hx hx' hx'' => (h.1 x hx hx' hx'').trans (heq x (by omega) hx''), ?_⟩
    rw [← hst]
    exact h.2
  | block n o =>
    refine ⟨fun x hx hx' hx'' => (h.1 x hx hx' hx'').trans (heq x (by omega) hx''), ?_⟩
    rw [← hst]
    exact h.2
  | run k =>
    exact ⟨fun x hx hx' hx'' => (h.keep x hx hx' hx'').trans (heq x (by omega) (by omega)), h.state,
      h.version, h.on, fun j hj => (h.bits j hj).trans (redoneBit_eqOn heq hj)⟩

theorem congr_right (h : TileRedone cur m₀ m p t) (heq : EqOn m m₁ (4096 * p) 64) :
    TileRedone cur m₀ m₁ p t := by
  have hst := field_eqOn (f := stateF) heq (by decide)
  cases t with
  | arena => exact h
  | stuck n => exact h
  | huge n o =>
    exact ⟨fun x hx hx' hx'' => (heq x (by omega) hx'').trans (h.1 x hx hx' hx''), hst.trans h.2⟩
  | block n o =>
    exact ⟨fun x hx hx' hx'' => (heq x (by omega) hx'').trans (h.1 x hx hx' hx''), hst.trans h.2⟩
  | run k =>
    exact ⟨fun x hx hx' hx'' => (heq x (by omega) (by omega)).trans (h.keep x hx hx' hx''),
      hst.trans h.state, (field_eqOn heq (by decide)).trans h.version, h.on.congr heq (by decide),
      fun j hj => (bitmapBit_eqOn heq hj).trans (h.bits j hj)⟩

/-- Redoing a header twice is redoing it once. -/
theorem trans (h : TileRedone cur m₀ m₁ p t) (h' : TileRedone cur m₁ m₂ p t) :
    TileRedone cur m₀ m₂ p t := by
  cases t with
  | arena => exact h
  | stuck n => exact h
  | huge n o =>
    refine ⟨fun x hx hx' hx'' => (h'.1 x hx hx' hx'').trans (h.1 x hx hx' hx''), ?_⟩
    rw [h'.2, h.2, redoneState_redoneState]
  | block n o =>
    refine ⟨fun x hx hx' hx'' => (h'.1 x hx hx' hx'').trans (h.1 x hx hx' hx''), ?_⟩
    rw [h'.2, h.2, redoneState_redoneState]
  | run k =>
    refine ⟨fun x hx hx' hx'' => (h'.keep x hx hx' hx'').trans (h.keep x hx hx' hx''), h'.state,
      h'.version, h'.on, fun j hj => ?_⟩
    rw [h'.bits j hj, redoneBit, h.state, if_neg (by simp), if_neg (by simp)]
    exact h.bits j hj

end TileRedone

end

/-! ## One entry -/

/-- The VHeaders that an entry for this tile adds. -/
def Tile.newRuns : Tile → ℕ
  | .run _ => 1
  | _ => 0

/-- What processing a log entry that names the tile `t` on page `p` does to the world, the log word
apart. -/
structure Processed (w w' : World) (p : ℕ) (t : Tile) : Prop where
  final : TileFinal w.nvmStart w.nvm.mem w'.nvm.mem p t
  version : ∀ k, t = .run k → field w'.nvm.mem (4096 * p) versionF = w.currentVersion % 2 ^ 32
  nvm : w'.nvm = { w.nvm with mem := w'.nvm.mem }
  nvmStart : w'.nvmStart = w.nvmStart
  currentVersion : w'.currentVersion = w.currentVersion
  ot : w'.ot = w.ot
  pages : ∀ a, (w'.arenas a).freePageruns.toList.Perm
    ((redo w.nvmStart w.nvm.mem p t).pages.filter (fun x => x.arena = a) ++
      (w.arenas a).freePageruns.toList)
  chunks : w'.freeChunks.toList.Perm
    ((redo w.nvmStart w.nvm.mem p t).chunks ++ w.freeChunks.toList)
  nFree : ∀ ab, (w'.bin ab).nFree = (w.bin ab).nFree
  runs : (∀ ab, (w'.bin ab).runs = none) ↔ (∀ ab, (w.bin ab).runs = none) ∧ ∀ k, t ≠ .run k
  old : ∀ k < w.nVheaders, w'.vheaders k = w.vheaders k
  count : w'.nVheaders = w.nVheaders + t.newRuns
  new : ∀ k, t = .run k → Describes w'.nvm.mem p (w'.vheaders w.nVheaders)

section

variable {I : Event → Prop} {Q : Unit → World → Prop} {E : Stop → Prop} {w w' : World} {m' : Mem}
  {p i x n : ℕ} {o : Owner} {t : Tile}

theorem Processed.off (h : Processed w w' p t) :
    EqOff (storeWords w.nvm.mem (redo w.nvmStart w.nvm.mem p t).words) w'.nvm.mem (4096 * p) 64 := by
  have hfinal := h.final
  cases t with
  | arena => exact absurd hfinal id
  | stuck n => exact absurd hfinal id
  | huge n o => exact HdrStage.off hfinal.toHdrStage
  | block n o => exact HdrStage.off hfinal.toHdrStage
  | run k => exact RunFinal.off hfinal

theorem Processed.hdr (h : Processed w w' p t) :
    TileRedone w.currentVersion w.nvm.mem w'.nvm.mem p t := by
  have hfinal := h.final
  cases t with
  | arena => exact absurd hfinal id
  | stuck n => exact absurd hfinal id
  | huge n o => exact ⟨hfinal.keep, hfinal.state⟩
  | block n o => exact ⟨hfinal.keep, hfinal.state⟩
  | run k => exact ⟨hfinal.keep, hfinal.state, h.version k rfl, hfinal.on, hfinal.bits⟩

/-- A header that is settled without being freed. -/
theorem processed_header (ht : t = .huge n o ∨ t = .block n o)
    (hfinal : HdrFinal w.nvmStart w.nvm.mem m' p)
    (hfree : getState (field w.nvm.mem (4096 * p) stateF) ≠ stateFreeing) :
    Processed w (w.setMem m') p t := by
  have hne : ∀ u, field w.nvm.mem (4096 * p) stateF ≠ 16 * u + stateFreeing := by
    intro u hst
    refine hfree ?_
    rw [hst]
    simp only [getState, stateFreeing]
    omega
  have hblock : field w.nvm.mem (4096 * p) stateF ≠ usageBlock + stateFreeing := hne 3
  have hhuge : field w.nvm.mem (4096 * p) stateF ≠ usageHuge + stateFreeing := hne 5
  have hredo : redo w.nvmStart w.nvm.mem p t = ⟨redoneWords w.nvmStart w.nvm.mem p blockOn, [], []⟩ := by
    rw [redo, if_neg hblock, if_neg hhuge]
    rcases ht with rfl | rfl <;> rfl
  have hrun : ∀ k, t ≠ .run k := by rcases ht with rfl | rfl <;> simp
  refine ⟨?_, fun k hk => absurd hk (hrun k), rfl, rfl, rfl, rfl, fun a => ?_, ?_, fun _ => rfl, ?_,
    fun _ _ => rfl, ?_, fun k hk => absurd hk (hrun k)⟩
  · rcases ht with rfl | rfl <;> exact hfinal
  · rw [hredo]
    exact List.Perm.refl _
  · rw [hredo]
    exact List.Perm.refl _
  · exact ⟨fun h => ⟨h, hrun⟩, fun h => h.1⟩
  · rcases ht with rfl | rfl <;> rfl

/-- A page run whose free is completed. -/
theorem processed_freedBlock (hfinal : HdrFinal w.nvmStart w.nvm.mem m' p)
    (hst : field w.nvm.mem (4096 * p) stateF = usageBlock + stateFreeing) :
    Processed w ((w.setMem m').setTree (blockNode m' p).arena
      (((w.setMem m').arenas (blockNode m' p).arena).freePageruns.treeAdd ArenaBlock.nPages
        (blockNode m' p))) p (.block n o) := by
  have hnode : blockNode m' p = blockNode w.nvm.mem p := by
    rw [blockNode, blockNode, hfinal.field_eq (f := nPagesF) (by decide),
      hfinal.field_eq (f := blockArenaIdF) (by decide)]
  have hredo : redo w.nvmStart w.nvm.mem p (.block n o) =
      ⟨redoneWords w.nvmStart w.nvm.mem p blockOn, [blockNode w.nvm.mem p], []⟩ := by
    rw [redo, if_pos hst, if_neg (by rw [hst]; decide)]
    rfl
  rw [hnode]
  have hbin : ∀ ab, ((w.setMem m').setTree (blockNode w.nvm.mem p).arena
      (((w.setMem m').arenas (blockNode w.nvm.mem p).arena).freePageruns.treeAdd ArenaBlock.nPages
        (blockNode w.nvm.mem p))).bin ab = w.bin ab := by
    intro ab
    simp only [World.bin, World.setTree, World.setArena, World.setMem, Function.update_apply]
    split
    · rename_i h
      rw [h]
    · rfl
  refine ⟨hfinal, by simp, rfl, rfl, rfl, rfl, fun a => ?_, ?_, fun ab => by rw [hbin], ?_,
    fun _ _ => rfl, rfl, by simp⟩
  · rw [hredo]
    simp only [World.setTree, World.setArena, World.setMem, Function.update_apply]
    split
    · rename_i h
      subst h
      simp only [decide_true, List.filter_cons_of_pos, List.filter_nil]
      exact SearchTree.treeAdd_perm ..
    · rename_i h
      simp [Ne.symm h]
  · rw [hredo]
    exact List.Perm.refl _
  · simp only [hbin]
    simp

/-- A huge region whose free is completed. -/
theorem processed_freedHuge (hfinal : HdrFinal w.nvmStart w.nvm.mem m' p)
    (hst : field w.nvm.mem (4096 * p) stateF = usageHuge + stateFreeing) :
    Processed w { w.setMem m' with
      freeChunks := (w.setMem m').freeChunks.treeAdd Huge.nChunks (hugeNode m' p) } p (.huge n o) := by
  have hnode : hugeNode m' p = hugeNode w.nvm.mem p := by
    rw [hugeNode, hugeNode, hfinal.field_eq (f := nChunksF) (by decide)]
  have hredo : redo w.nvmStart w.nvm.mem p (.huge n o) =
      ⟨redoneWords w.nvmStart w.nvm.mem p blockOn, [], [hugeNode w.nvm.mem p]⟩ := by
    rw [redo, if_pos hst, if_neg (by rw [hst]; decide)]
    rfl
  rw [hnode]
  refine ⟨hfinal, by simp, rfl, rfl, rfl, rfl, fun a => ?_, ?_, fun _ => rfl, ?_, fun _ _ => rfl, rfl,
    by simp⟩
  · rw [hredo]
    exact List.Perm.refl _
  · rw [hredo]
    exact SearchTree.treeAdd_perm ..
  · simp [World.bin, World.setMem]

/-- A run: its VHeader is built and put on the list of its bin. -/
theorem processed_run {k : ℕ} {y : ArenaRun} (hstate : RunStateOk (field w.nvm.mem (4096 * p) stateF))
    (hfinal : RunFinal w.nvmStart w.nvm.mem m' p)
    (hversion : field m' (4096 * p) versionF = w.currentVersion % 2 ^ 32) (hy : Describes m' p y) :
    Processed w ((w.pushNew y).setMem m') p (.run k) := by
  have hredo : redo w.nvmStart w.nvm.mem p (.run k) =
      ⟨redoneWords w.nvmStart w.nvm.mem p runOn, [], []⟩ := by
    simp only [RunStateOk, List.mem_cons, List.not_mem_nil, or_false] at hstate
    unfold redo
    rcases hstate with hst | hst | hst | hst | hst <;> rw [hst] <;> rfl
  have hbin : ∀ ab, ((w.pushNew y).setMem m').bin ab =
      if ab = y.bin then { w.bin ab with runs := some w.nVheaders } else w.bin ab := by
    rintro ⟨a, b⟩
    simp only [World.bin, World.pushNew, World.addRun, World.setBin, World.setArena, World.setMem,
      Function.update_apply]
    by_cases ha : a = y.bin.1
    · by_cases hb : b = y.bin.2
      · subst ha hb
        simp
      · have hne : ((a, b) : ℕ × ℕ) ≠ y.bin := fun h => hb (by rw [← h])
        subst ha
        simp [hb, hne]
    · have hne : ((a, b) : ℕ × ℕ) ≠ y.bin := fun h => ha (by rw [← h])
      simp [ha, hne]
  have hvheaders : ((w.pushNew y).setMem m').vheaders =
      Function.update w.vheaders w.nVheaders { y with next := (w.bin y.bin).runs } := rfl
  refine ⟨hfinal, fun _ _ => hversion, rfl, rfl, rfl, rfl, fun a => ?_, ?_, fun ab => ?_, ?_,
    fun k hk => ?_, rfl, fun k _ => ?_⟩
  · have htree : (((w.pushNew y).setMem m').arenas a).freePageruns = (w.arenas a).freePageruns := by
      simp only [World.pushNew, World.addRun, World.setBin, World.setArena, World.setMem,
        Function.update_apply]
      split
      · rename_i h
        rw [h]
      · rfl
    rw [hredo, htree]
    exact List.Perm.refl _
  · rw [hredo]
    exact List.Perm.refl _
  · rw [hbin]
    split <;> rfl
  · refine ⟨fun h => ?_, fun h => absurd rfl (h.2 k)⟩
    have := h y.bin
    rw [hbin, if_pos rfl] at this
    exact absurd this (by simp)
  · rw [hvheaders, Function.update_of_ne (by omega)]
  · rw [hvheaders, Function.update_self]
    exact ⟨hy.nvmRun, hy.bin, hy.elemSize, hy.nFree, hy.nMax, hy.bitmap⟩

/-- A header in state 0 is taken for a run and fails the check of its state. -/
theorem recoverRun_assertFails {h : ℕ} (hst : field w.nvm.mem h stateF = 0) (hE : E .assertFailed) :
    Located (recoverRun h) I Q E w := by
  unfold recoverRun replayRun
  rw [located_bind, located_bind, located_loadField, hst, if_neg (by decide), if_neg (by decide),
    if_neg (by decide), if_neg (by decide), located_assertThat]
  exact ⟨fun h => absurd h (by decide), fun _ => hE⟩

/-- A run header without an element size divides by zero. -/
theorem recoverRun_faults {h : ℕ} (hst : field w.nvm.mem h stateF = usageRun + stateInitialized)
    (hbytes : field w.nvm.mem h nBytesF = 0) (hE : E .fault) : Located (recoverRun h) I Q E w := by
  have hbin : ¬ BinExists w.nvm.mem h := by
    rintro ⟨-, hpos, -⟩
    rw [hbytes] at hpos
    omega
  unfold recoverRun replayRun
  rw [located_bind, located_bind, located_loadField, hst, if_neg (by decide), if_neg (by decide),
    if_neg (by decide), if_neg (by decide), located_assertThat]
  refine ⟨fun _ => ?_, fun h => absurd rfl h⟩
  rw [located_bind, located_arenaCreateRunHeader]
  exact ⟨fun h => absurd h hbin, fun _ => hE⟩

/-- The header page of the region that a log word names. -/
theorem Names.header (hnames : Names x p t) : x / blockSize * blockSize = 4096 * p := by
  have := hnames.page
  simp only [blockSize]
  omega

/-- What `identify_usage` makes of a word that names the page after its header. -/
theorem identifyUsage_page (m : Mem) (hp : p % 1024 ≠ 0) :
    identifyUsage m (4096 * p + 64) =
      if getUsage (field m (4096 * p) stateF) = usageBlock ∨
        getUsage (field m (4096 * p) stateF) = usageFree then some .block else some .run := by
  have hsub : 4096 * p + 64 - headerSize = 4096 * p := by simp only [headerSize]; omega
  rw [identifyUsage, if_neg (by simp only [chunkSize, headerSize]; omega),
    if_neg (by simp only [blockSize, headerSize]; omega),
    if_pos (by simp only [blockSize, headerSize]; omega), hsub]

/-- A word that names a run is taken for one. -/
theorem identifyUsage_run {k : ℕ} {m : Mem} (hnames : Names x p (.run k)) (hp : p % 1024 ≠ 0)
    (husage : getUsage (field m (4096 * p) stateF) = usageRun) : identifyUsage m x = some .run := by
  obtain ⟨hlo, hhi⟩ := hnames
  by_cases hx : x = 4096 * p + 64
  · rw [hx, identifyUsage_page m hp, husage, if_neg (by decide)]
  · rw [identifyUsage, if_neg (by simp only [chunkSize, headerSize]; omega),
      if_pos (by simp only [blockSize, headerSize]; omega)]

/-- **One entry of the log loop that names the tile `t` on page `p`.** -/
theorem recoverLogEntry_located (hx : w.nvm.log i = x) (hne : x ≠ 0) (hnames : Names x p t)
    (hfits : t.Fits p) (hhdr : HdrOk w.nvm.mem p t)
    (hout : Pending w.nvm.mem p → Outside (recordedWords w.nvm.mem (4096 * p) t.on) (4096 * p) 64)
    (hI : AcceptsRedo I w p t)
    (hstuck : ∀ n, t = .stuck n → field w.nvm.mem (4096 * p) stateF = 0 ∨
      field w.nvm.mem (4096 * p) stateF = usageRun + stateInitialized)
    (hassert : ¬ Expected w.nvm.mem p → E .assertFailed) (hfault : ∀ n, t = .stuck n → E .fault)
    (hQ : ∀ w', Processed w w' p t → Expected w.nvm.mem p →
      I (.storeMeta { w'.nvm with log := Function.update w'.nvm.log i 0 }) ∧
        Q () { w' with nvm := { w'.nvm with log := Function.update w'.nvm.log i 0 } }) :
    Located (recoverLogEntry i) I Q E w := by
  have hheader := hnames.header
  have hzero : field w.nvm.mem (4096 * p) stateF = 0 → ¬ Expected w.nvm.mem p := by
    intro hst hexp
    exact hexp (hst ▸ List.mem_cons_self)
  unfold recoverLogEntry
  rw [located_bind, located_get, hx, if_neg hne]
  cases t with
  | arena => exact absurd hnames id
  | huge n o =>
    simp only [Names] at hnames
    simp only [Tile.Fits] at hfits
    have hid : identifyUsage w.nvm.mem x = some .huge := by
      rw [identifyUsage, if_pos (by simp only [chunkSize, headerSize]; omega)]
    have hsub : x - headerSize = 4096 * p := by simp only [headerSize]; omega
    simp only [hid, hsub, located_bind, located_storeLog]
    unfold recoverHuge
    refine recoverHeader_located (Or.inl rfl) hhdr.hugeState (by decide) hout hI hassert
      (fun m' hm' hexp hf => hQ _ (processed_header (Or.inl rfl) hm' hf) hexp) fun m' hm' hexp hst => ?_
    unfold addFreeChunk
    rw [located_bind, located_loadField, located_modify]
    exact hQ _ (processed_freedHuge hm' hst) hexp
  | block n o =>
    simp only [Names] at hnames
    simp only [Tile.Fits] at hfits
    have hid := identifyUsage_page w.nvm.mem hfits.1
    rw [← hnames] at hid
    by_cases hst : field w.nvm.mem (4096 * p) stateF = 0
    · -- the first byte of a page run that becomes a run is cleared: it is taken for a run
      rw [hst, if_neg (by decide)] at hid
      simp only [hid, hheader, located_bind, located_storeLog]
      exact recoverRun_assertFails hst (hassert (hzero hst))
    rw [if_pos ((show ∀ st ∈ [usageFree + stateInitializing, usageFree + stateInitialized,
      usageBlock + stateInitialized, usageBlock + stateFreeing, usageBlock + stateActivating],
      getUsage st = usageBlock ∨ getUsage st = usageFree by decide) _
      ((List.mem_cons.mp hhdr.2.2).resolve_left hst))] at hid
    simp only [hid, hheader, located_bind, located_storeLog]
    unfold recoverBlock
    refine recoverHeader_located (Or.inr rfl) hhdr.blockState (by decide) hout hI hassert
      (fun m' hm' hexp hf => hQ _ (processed_header (Or.inr rfl) hm' hf) hexp) fun m' hm' hexp hst => ?_
    have ha' : field m' (4096 * p) blockArenaIdF < initialArenas := by
      rw [hm'.field_eq (by decide)]
      exact hhdr.2.1
    unfold arenaCreateBlockHeader addFreePagerun
    simp only [located_bind, located_loadField, located_ite, located_pure, located_throw,
      located_modify]
    exact ⟨fun _ => hQ _ (processed_freedBlock hm' hst) hexp, fun h => absurd ha' h⟩
  | run k =>
    simp only [Tile.Fits] at hfits
    obtain ⟨husage, hexp⟩ := (show ∀ st ∈ [usageRun + stateInitialized, usageRun + statePrefree,
      usageRun + stateFreeing, usageRun + statePreactivate, usageRun + stateActivating],
      getUsage st = usageRun ∧
        st ∉ [0, usageFree + stateInitializing, usageHuge + stateInitializing] by decide) _ hhdr.2.1
    have hid := identifyUsage_run hnames hfits husage
    simp only [hid, hheader, located_bind, located_storeLog]
    exact recoverRun_located hhdr hout hI fun m' y hfinal hversion hy =>
      hQ _ (processed_run hhdr.2.1 hfinal hversion hy) hexp
  | stuck n =>
    obtain ⟨rfl, hp⟩ := hnames
    have hid := identifyUsage_page w.nvm.mem hp
    rcases hstuck n rfl with hst | hst
    · rw [hst, if_neg (by decide)] at hid
      simp only [hid, hheader, located_bind, located_storeLog]
      exact recoverRun_assertFails hst (hassert (hzero hst))
    · rw [hst, if_neg (by decide)] at hid
      have hbytes : field w.nvm.mem (4096 * p) nBytesF = 0 := by
        simp only [HdrOk, StuckHdr, if_neg hp] at hhdr
        rcases hhdr with ⟨-, hbytes⟩ | ⟨husage, -⟩
        · exact hbytes
        · rw [hst] at husage
          exact absurd (by decide) husage
      simp only [hid, hheader, located_bind, located_storeLog]
      exact recoverRun_faults hst hbytes (hfault n rfl)

end

/-! ## The loop -/

/-- An entry before `i` names page `p`. -/
def NamedBefore (img : Nvm) (i p : ℕ) : Prop := ∃ j < i, img.log j ≠ 0 ∧ img.log j / 4096 = p

instance (img : Nvm) (i p : ℕ) : Decidable (NamedBefore img i p) :=
  inferInstanceAs (Decidable (∃ j < i, img.log j ≠ 0 ∧ img.log j / 4096 = p))

/-- What the entries before `i` redo, if only the header on page `p₀` is in transition. -/
def redoneBefore (L : Layout) (p₀ nvmStart : ℕ) (img : Nvm) (i : ℕ) : Redo :=
  match L p₀ with
  | none => .nothing
  | some t => if NamedBefore img i p₀ then redo nvmStart img.mem p₀ t else .nothing

/-- The words that the log loop replays lie outside all headers. -/
def WordsClear (L : Layout) (img : Nvm) : Prop :=
  ∀ {p t}, L p = some t → NamedBefore img maxLogEntries p → Pending img.mem p → ∀ {q u}, L q = some u →
    Outside (recordedWords img.mem (4096 * p) t.on) (4096 * q) 64

/-- The byte `x` lies in no header. -/
def OffHeaders (L : Layout) (x : ℕ) : Prop :=
  ∀ p t, L p = some t → x < 4096 * p ∨ 4096 * p + 64 ≤ x

/-- The state of recovery on `img` after the entries before `i`. -/
structure LogInv (P : Process) (L : Layout) (p₀ : ℕ) (img : Nvm) (i : ℕ) (w : World) : Prop where
  nextChunk : w.nvm.nextChunk = img.nextChunk
  nvmStart : w.nvmStart = P.nvmStart
  currentVersion : w.currentVersion = img.version
  ot : w.ot = (P.start img).ot
  log : ∀ j, w.nvm.log j = if j < i then 0 else img.log j
  same : ∀ {p t}, L p = some t → ¬ NamedBefore img i p → EqOn img.mem w.nvm.mem (4096 * p) 64
  done : ∀ {p t}, L p = some t → NamedBefore img i p →
    TileRedone img.version img.mem w.nvm.mem p t
  body : ∀ x, OffHeaders L x →
    w.nvm.mem x = storeWords img.mem (redoneBefore L p₀ P.nvmStart img i).words x
  pages : ∀ a, (w.arenas a).freePageruns.toList.Perm
    ((redoneBefore L p₀ P.nvmStart img i).pages.filter fun x => x.arena = a)
  chunks : w.freeChunks.toList.Perm (redoneBefore L p₀ P.nvmStart img i).chunks
  nFree : ∀ ab, (w.bin ab).nFree = 0
  runs : (∀ ab, (w.bin ab).runs = none) ↔ ∀ p k, L p = some (.run k) → ¬ NamedBefore img i p
  vheader : ∀ k < w.nVheaders, ∃ p r, L p = some (.run r) ∧ NamedBefore img i p ∧
    Describes w.nvm.mem p (w.vheaders k)

/-- Where the log loop stores: into headers, and the recorded links. -/
def LogPlace (L : Layout) (img : Nvm) (a n : ℕ) : Prop :=
  (∃ p t, L p = some t ∧ 4096 * p ≤ a ∧ a + n ≤ 4096 * p + 64) ∨
    ∃ p t, L p = some t ∧ Pending img.mem p ∧
      ∃ x ∈ recordedWords img.mem (4096 * p) t.on, a = x.1 ∧ n = 8

/-- Why the log loop stops early: an entry names a header in a state it does not expect, or a run header
that is not complete. -/
def LogStops (L : Layout) (img : Nvm) (e : Stop) : Prop :=
  ∃ i < maxLogEntries, ∃ p t, L p = some t ∧ img.log i ≠ 0 ∧ Names (img.log i) p t ∧
    (e = .assertFailed ∧ field img.mem (4096 * p) stateF ∈
      [0, usageFree + stateInitializing, usageHuge + stateInitializing] ∨
      e = .fault ∧ ∃ n, t = .stuck n)

section

variable {P : Process} {L : Layout} {p₀ i p : ℕ} {t : Tile} {img : Nvm} {w w' : World} {m m₀ : Mem}
  {cur : ℕ}

/-- A redone header is in order. -/
theorem HdrOk.redone (h : HdrOk m₀ p t) (hr : TileRedone cur m₀ m p t) : HdrOk m p t := by
  cases t with
  | arena => exact absurd hr id
  | stuck n => exact absurd hr id
  | huge n o =>
    obtain ⟨hn, hst⟩ := h
    refine ⟨?_, ?_⟩
    · rw [← hn]
      exact field_congr fun x hx hx' => by
        simp only [nChunksF] at hx hx'
        exact hr.1 x (by omega) (by omega) (by omega)
    · rw [hr.2]
      simp only [List.mem_cons, List.not_mem_nil, or_false] at hst
      rcases hst with hst | hst | hst | hst | hst <;> rw [hst] <;> decide
  | block n o =>
    obtain ⟨hn, ha, hst⟩ := h
    refine ⟨?_, ?_, ?_⟩
    · rw [← hn]
      exact field_congr fun x hx hx' => by
        simp only [nPagesF] at hx hx'
        exact hr.1 x (by omega) (by omega) (by omega)
    · refine lt_of_eq_of_lt ?_ ha
      exact field_congr fun x hx hx' => by
        simp only [blockArenaIdF] at hx hx'
        exact hr.1 x (by omega) (by omega) (by omega)
    · rw [hr.2]
      simp only [List.mem_cons, List.not_mem_nil, or_false] at hst
      rcases hst with hst | hst | hst | hst | hst | hst <;> rw [hst] <;> decide
  | run k =>
    obtain ⟨hrun, -, -⟩ := h
    refine ⟨?_, ?_, ?_⟩
    · have hbytes : field m (4096 * p) nBytesF = field m₀ (4096 * p) nBytesF :=
        field_congr fun x hx hx' => by
          simp only [nBytesF] at hx hx'
          exact hr.keep x (by omega) (by omega) (by omega)
      have harena : field m (4096 * p) runArenaIdF = field m₀ (4096 * p) runArenaIdF :=
        field_congr fun x hx hx' => by
          simp only [runArenaIdF] at hx hx'
          exact hr.keep x (by omega) (by omega) (by omega)
      unfold RunHdr
      rwa [hbytes, harena]
    · rw [hr.state]
      simp
    · rw [hr.state]
      simp

/-- A redone header is not in transition. -/
theorem TileRedone.settled (h : HdrOk m₀ p t) (hr : TileRedone cur m₀ m p t) : Settled m p := by
  unfold Settled
  cases t with
  | arena => exact absurd hr id
  | stuck n => exact absurd hr id
  | huge n o =>
    have hst := h.2
    rw [hr.2]
    simp only [List.mem_cons, List.not_mem_nil, or_false] at hst
    rcases hst with hst | hst | hst | hst | hst <;> rw [hst] <;> decide
  | block n o =>
    have hst := h.2.2
    rw [hr.2]
    simp only [List.mem_cons, List.not_mem_nil, or_false] at hst
    rcases hst with hst | hst | hst | hst | hst | hst <;> rw [hst] <;> decide
  | run k =>
    rw [hr.state]
    decide

theorem namedBefore_zero (img : Nvm) (p : ℕ) : ¬ NamedBefore img 0 p := by
  rintro ⟨j, hj, -⟩
  omega

/-- An empty entry names nothing. -/
theorem namedBefore_succ_of_zero (hx : img.log i = 0) :
    NamedBefore img (i + 1) p ↔ NamedBefore img i p := by
  refine ⟨?_, fun ⟨j, hj, h⟩ => ⟨j, by omega, h⟩⟩
  rintro ⟨j, hj, hne, hpage⟩
  by_cases hji : j = i
  · subst hji
    exact absurd hx hne
  · exact ⟨j, by omega, hne, hpage⟩

/-- An entry names the page of the tile it names. -/
theorem namedBefore_succ {q : ℕ} (hne : img.log i ≠ 0) (hpage : img.log i / 4096 = p) :
    NamedBefore img (i + 1) q ↔ NamedBefore img i q ∨ q = p := by
  constructor
  · rintro ⟨j, hj, hnej, hq⟩
    by_cases hji : j = i
    · subst hji
      exact Or.inr (hq.symm.trans hpage)
    · exact Or.inl ⟨j, by omega, hnej, hq⟩
  · rintro (⟨j, hj, h⟩ | rfl)
    · exact ⟨j, by omega, h⟩
    · exact ⟨i, by omega, hne, hpage⟩

namespace LogInv

/-- Every header is in order. -/
theorem hdrOk (h : LogInv P L p₀ img i w) (himg : ImgInv L p₀ img) (hp : L p = some t) :
    HdrOk w.nvm.mem p t := by
  by_cases hnamed : NamedBefore img i p
  · exact (himg.hdr hp).redone (h.done hp hnamed)
  · exact (himg.hdr hp).congr (h.same hp hnamed)

/-- A header that is still in transition is as the crash left it. -/
theorem pending (h : LogInv P L p₀ img i w) (himg : ImgInv L p₀ img) (hp : L p = some t)
    (hpend : Pending w.nvm.mem p) :
    ¬ NamedBefore img i p ∧ EqOn img.mem w.nvm.mem (4096 * p) 64 ∧ Pending img.mem p := by
  have hnamed : ¬ NamedBefore img i p := fun hnamed =>
    (TileRedone.settled (himg.hdr hp) (h.done hp hnamed)).not_pending hpend
  have heq := h.same hp hnamed
  refine ⟨hnamed, heq, ?_⟩
  unfold Pending at hpend ⊢
  rwa [field_eqOn heq (by decide)] at hpend

/-- The links recorded in a header that is still in transition. -/
theorem recordedWords_eq (h : LogInv P L p₀ img i w) (himg : ImgInv L p₀ img) (hp : L p = some t)
    (hpend : Pending w.nvm.mem p) :
    recordedWords w.nvm.mem (4096 * p) t.on = recordedWords img.mem (4096 * p) t.on := by
  have hon : 1 ≤ t.on ∧ t.on + 32 ≤ 64 := by cases t <;> simp [Tile.on]
  exact recordedWords_congr ((h.pending himg hp hpend).2.1.mono (by omega) (by omega))

/-- An entry that names nothing. -/
theorem skip (h : LogInv P L p₀ img i w) (hx : img.log i = 0) : LogInv P L p₀ img (i + 1) w := by
  have hnamed : ∀ q, NamedBefore img (i + 1) q ↔ NamedBefore img i q :=
    fun q => namedBefore_succ_of_zero hx
  have hredo : redoneBefore L p₀ P.nvmStart img (i + 1) = redoneBefore L p₀ P.nvmStart img i := by
    simp only [redoneBefore, hnamed]
  refine ⟨h.nextChunk, h.nvmStart, h.currentVersion, h.ot, fun j => ?_, ?_, ?_, ?_, ?_, ?_, h.nFree, ?_,
    ?_⟩
  · rw [h.log j]
    by_cases hj : j = i
    · subst hj
      rw [if_neg (by omega), if_pos (by omega), hx]
    · simp only [show j < i + 1 ↔ j < i by omega]
  · simpa only [hnamed] using @h.same
  · simpa only [hnamed] using @h.done
  · simpa only [hredo] using h.body
  · simpa only [hredo] using h.pages
  · simpa only [hredo] using h.chunks
  · simpa only [hnamed] using h.runs
  · simpa only [hnamed] using h.vheader

/-- What one more entry redoes: nothing, or everything. -/
theorem redo_cases (h : LogInv P L p₀ img i w) (himg : ImgInv L p₀ img) (hp : L p = some t)
    (hne : img.log i ≠ 0) (hpage : img.log i / 4096 = p) :
    (redo w.nvmStart w.nvm.mem p t = .nothing ∧
      redoneBefore L p₀ P.nvmStart img (i + 1) = redoneBefore L p₀ P.nvmStart img i) ∨
      (redoneBefore L p₀ P.nvmStart img i = .nothing ∧
        redoneBefore L p₀ P.nvmStart img (i + 1) = redo w.nvmStart w.nvm.mem p t) := by
  have hsucc : ∀ q, NamedBefore img (i + 1) q ↔ NamedBefore img i q ∨ q = p :=
    fun q => namedBefore_succ hne hpage
  by_cases hnamed : NamedBefore img i p
  · -- the header has been redone before
    refine Or.inl ⟨redo_of_settled
      (TileRedone.settled (himg.hdr hp) (h.done hp hnamed)).not_pending, ?_⟩
    have hiff : NamedBefore img (i + 1) p₀ ↔ NamedBefore img i p₀ := by
      rw [hsucc, or_iff_left_of_imp]
      rintro rfl
      exact hnamed
    simp only [redoneBefore, hiff]
  · have heq := h.same hp hnamed
    by_cases hp₀ : p = p₀
    · subst hp₀
      refine Or.inr ⟨?_, ?_⟩
      · simp only [redoneBefore, hp, if_neg hnamed]
      · simp only [redoneBefore, hp, if_pos ((hsucc p).mpr (Or.inr rfl))]
        rw [redo_eqOn heq, h.nvmStart]
    · -- a header that was not in transition
      refine Or.inl ⟨?_, ?_⟩
      · rw [redo_eqOn heq]
        exact redo_of_settled (himg.settled hp hp₀).not_pending
      · have hiff : NamedBefore img (i + 1) p₀ ↔ NamedBefore img i p₀ := by
          rw [hsucc, or_iff_left_of_imp]
          exact fun hp' => absurd hp'.symm hp₀
        simp only [redoneBefore, hiff]

/-- The header lines of the other tiles stay as they are. -/
theorem eqOn_other (h : LogInv P L p₀ img i w) (himg : ImgInv L p₀ img)
    (hclear : WordsClear L img) (hp : L p = some t) (hname : NamedBefore img maxLogEntries p)
    (hproc : Processed w w' p t) {q : ℕ} {u : Tile} (hq : L q = some u) (hqp : q ≠ p) :
    EqOn w.nvm.mem w'.nvm.mem (4096 * q) 64 := by
  have hwords : Outside (redo w.nvmStart w.nvm.mem p t).words (4096 * q) 64 := by
    show Outside (redoneWords w.nvmStart w.nvm.mem p t.on) (4096 * q) 64
    rw [redoneWords]
    split
    · rename_i hpend
      refine outside_replayedWords ?_
      rw [h.recordedWords_eq himg hp hpend]
      exact hclear hp hname (h.pending himg hp hpend).2.2 hq
    · exact fun x hx => absurd hx (by simp)
  exact (hwords.eqOn _).trans (himg.ok.eqOn_header hproc.off hp hq hqp)

/-- **One entry of the log.** -/
theorem process (h : LogInv P L p₀ img i w) (himg : ImgInv L p₀ img) (hclear : WordsClear L img)
    (hi : i < maxLogEntries) (hp : L p = some t) (hne : img.log i ≠ 0) (hpage : img.log i / 4096 = p)
    (hproc : Processed w w' p t) :
    LogInv P L p₀ img (i + 1)
      { w' with nvm := { w'.nvm with log := Function.update w'.nvm.log i 0 } } := by
  have hsucc : ∀ q, NamedBefore img (i + 1) q ↔ NamedBefore img i q ∨ q = p :=
    fun q => namedBefore_succ hne hpage
  have hother : ∀ {q u}, L q = some u → q ≠ p → EqOn w.nvm.mem w'.nvm.mem (4096 * q) 64 :=
    fun hq => h.eqOn_other himg hclear hp ⟨i, hi, hne, hpage⟩ hproc hq
  have hredo := h.redo_cases himg hp hne hpage
  have hdone : TileRedone img.version img.mem w'.nvm.mem p t := by
    have hhdr := hproc.hdr
    rw [h.currentVersion] at hhdr
    by_cases hnamed : NamedBefore img i p
    · exact (h.done hp hnamed).trans hhdr
    · exact hhdr.congr_left (h.same hp hnamed)
  refine ⟨?_, ?_, ?_, ?_, fun j => ?_, fun {q u} hq hnamed => ?_, fun {q u} hq hnamed => ?_,
    fun x hx => ?_, fun a => ?_, ?_, fun ab => ?_, ?_, fun k hk => ?_⟩
  · rw [hproc.nvm]
    exact h.nextChunk
  · exact hproc.nvmStart.trans h.nvmStart
  · exact hproc.currentVersion.trans h.currentVersion
  · exact hproc.ot.trans h.ot
  · rw [hproc.nvm]
    show Function.update w.nvm.log i 0 j = _
    rw [Function.update_apply]
    split
    · rename_i hj
      rw [if_pos (by omega)]
    · rename_i hj
      rw [h.log j]
      simp only [show j < i + 1 ↔ j < i by omega]
  · rw [hsucc, not_or] at hnamed
    exact (h.same hq hnamed.1).trans (hother hq hnamed.2)
  · by_cases hqp : q = p
    · subst hqp
      rw [hp, Option.some.injEq] at hq
      exact hq ▸ hdone
    · exact (h.done hq (((hsucc q).mp hnamed).resolve_right hqp)).congr_right (hother hq hqp)
  · have hstep : w'.nvm.mem x = storeWords w.nvm.mem (redo w.nvmStart w.nvm.mem p t).words x :=
      hproc.off x (hx p t hp)
    have hbody := h.body x hx
    show w'.nvm.mem x = _
    rw [hstep]
    rcases hredo with ⟨hnone, hsame⟩ | ⟨hnone, hall⟩
    · rw [hnone, hsame]
      exact hbody
    · rw [hall]
      rw [hnone] at hbody
      exact storeWords_apply_congr hbody
  · refine (hproc.pages a).trans ?_
    have hpages := h.pages a
    rcases hredo with ⟨hnone, hsame⟩ | ⟨hnone, hall⟩
    · rw [hnone, hsame]
      exact hpages
    · rw [hnone] at hpages
      rw [hall, List.Perm.eq_nil hpages, List.append_nil]
  · refine hproc.chunks.trans ?_
    have hchunks := h.chunks
    rcases hredo with ⟨hnone, hsame⟩ | ⟨hnone, hall⟩
    · rw [hnone, hsame]
      exact hchunks
    · rw [hnone] at hchunks
      rw [hall, List.Perm.eq_nil hchunks, List.append_nil]
  · exact (hproc.nFree ab).trans (h.nFree ab)
  · refine hproc.runs.trans ?_
    rw [h.runs]
    constructor
    · rintro ⟨hold, hrun⟩ q k hq hnamed
      rcases (hsucc q).mp hnamed with hnamed | rfl
      · exact hold q k hq hnamed
      · rw [hp, Option.some.injEq] at hq
        exact hrun k hq
    · intro hall
      refine ⟨fun q k hq hnamed => hall q k hq ((hsucc q).mpr (Or.inl hnamed)), fun k hk => ?_⟩
      exact hall p k (hk ▸ hp) ((hsucc p).mpr (Or.inr rfl))
  · have hk' : k < w.nVheaders + t.newRuns := hproc.count ▸ hk
    by_cases hlt : k < w.nVheaders
    · obtain ⟨q, r, hq, hnamed, hdesc⟩ := h.vheader k hlt
      refine ⟨q, r, hq, (hsucc q).mpr (Or.inl hnamed), ?_⟩
      show Describes w'.nvm.mem q (w'.vheaders k)
      rw [hproc.old k hlt]
      have hslots := slotsPerRun_lt_of_runSize (h.hdrOk himg hq).1.1
      by_cases hqp : q = p
      · -- the same run once more: its bitmap is as the first replay left it
        subst hqp
        rw [hp, Option.some.injEq] at hq
        subst hq
        have hrun : RunRedone w.currentVersion w.nvm.mem w'.nvm.mem (4096 * q) := hproc.hdr
        have hfirst : RunRedone img.version img.mem w.nvm.mem (4096 * q) := h.done hp hnamed
        refine hdesc.congr (field_congr fun x hx hx' => ?_) (field_congr fun x hx hx' => ?_)
          (fun j hj => ?_) hslots
        · simp only [nBytesF] at hx hx'
          exact hrun.keep x (by omega) (by omega) (by omega)
        · simp only [runArenaIdF] at hx hx'
          exact hrun.keep x (by omega) (by omega) (by omega)
        · rw [hrun.bits j hj, redoneBit, hfirst.state, if_neg (by simp), if_neg (by simp)]
      · have heq := hother hq hqp
        exact hdesc.congr (field_eqOn heq (by decide)) (field_eqOn heq (by decide))
          (fun j hj => bitmapBit_eqOn heq hj) hslots
    · cases t with
      | run r =>
        have hkeq : k = w.nVheaders := by
          simp only [Tile.newRuns] at hk'
          omega
        subst hkeq
        exact ⟨p, r, hp, (hsucc p).mpr (Or.inr rfl), hproc.new r rfl⟩
      | arena => exact absurd hk' hlt
      | huge n o => exact absurd hk' hlt
      | block n o => exact absurd hk' hlt
      | stuck n => exact absurd hk' hlt

end LogInv

/-- A redone header in a state the log loop does not expect was in that state at the crash. -/
theorem TileRedone.unexpected (hr : TileRedone cur m₀ m p t)
    (hst : field m (4096 * p) stateF ∈
      [0, usageFree + stateInitializing, usageHuge + stateInitializing]) :
    field m₀ (4096 * p) stateF ∈
      [0, usageFree + stateInitializing, usageHuge + stateInitializing] := by
  have hregion : field m (4096 * p) stateF = redoneState (field m₀ (4096 * p) stateF) →
      field m₀ (4096 * p) stateF ∈
        [0, usageFree + stateInitializing, usageHuge + stateInitializing] := by
    intro heq
    unfold redoneState at heq
    split at heq
    · rw [heq] at hst
      exact absurd hst (by decide)
    · split at heq
      · rw [heq] at hst
        simp only [List.mem_cons, List.not_mem_nil, or_false, getUsage, usageFree, usageHuge,
          stateInitialized, stateInitializing] at hst
        omega
      · rwa [← heq]
  cases t with
  | arena => exact absurd hr id
  | stuck n => exact absurd hr id
  | huge n o => exact hregion hr.2
  | block n o => exact hregion hr.2
  | run k =>
    rw [hr.state] at hst
    exact absurd hst (by decide)

/-- One iteration of the log loop. -/
theorem LogInv.step (h : LogInv P L p₀ img i w) (himg : ImgInv L p₀ img)
    (hclear : WordsClear L img) (hi : i < maxLogEntries) :
    Located (recoverLogEntry i) (StoresIn (LogPlace L img)) (fun _ w' => LogInv P L p₀ img (i + 1) w')
      (LogStops L img) w := by
  have hlog : w.nvm.log i = img.log i := by rw [h.log, if_neg (by omega)]
  by_cases hne : img.log i = 0
  · unfold recoverLogEntry
    rw [located_bind, located_get, hlog, if_pos hne, located_pure]
    exact h.skip hne
  obtain ⟨p, t, hp, hnames⟩ := himg.log i hi hne
  refine recoverLogEntry_located hlog hne hnames (himg.ok.fits hp) (h.hdrOk himg hp)
    (fun hpend => ?_) (fun hplace _ => ?_) (fun n ht => ?_)
    (fun hst => ⟨i, hi, p, t, hp, hne, hnames, Or.inl ⟨rfl, ?_⟩⟩)
    (fun n ht => ⟨i, hi, p, t, hp, hne, hnames, Or.inr ⟨rfl, n, ht⟩⟩)
    fun w' hproc _ => ⟨trivial, h.process himg hclear hi hp hne hnames.page hproc⟩
  · rw [h.recordedWords_eq himg hp hpend]
    exact hclear hp ⟨i, hi, hne, hnames.page⟩ (h.pending himg hp hpend).2.2 hp
  · rcases hplace with hline | ⟨hpend, hword⟩
    · exact Or.inl ⟨p, t, hp, hline⟩
    · rw [h.recordedWords_eq himg hp hpend] at hword
      exact Or.inr ⟨p, t, hp, (h.pending himg hp hpend).2.2, hword⟩
  · subst ht
    by_cases hnamed : NamedBefore img i p
    · exact absurd (h.done hp hnamed) id
    · rw [field_eqOn (h.same hp hnamed) (by decide)]
      exact himg.stuckLog hp hi hnames hne
  · rw [Expected, not_not] at hst
    by_cases hnamed : NamedBefore img i p
    · exact (h.done hp hnamed).unexpected hst
    · rwa [field_eqOn (h.same hp hnamed) (by decide)] at hst

/-- **The log loop, up to entry `n`.** -/
theorem logLoop_located (himg : ImgInv L p₀ img) (hclear : WordsClear L img)
    (h : LogInv P L p₀ img 0 w) {n : ℕ} (hn : n ≤ maxLogEntries) :
    Located (forRange recoverLogEntry 0 n) (StoresIn (LogPlace L img))
      (fun _ w' => LogInv P L p₀ img n w') (LogStops L img) w := by
  have hloop : Located (forRange recoverLogEntry 0 n) (StoresIn (LogPlace L img))
      (fun _ w' => LogInv P L p₀ img (0 + n) w') (LogStops L img) w :=
    wp_forRange (LogInv P L p₀ img) h fun k w' _ hk h' => h'.step himg hclear (by omega)
  rwa [Nat.zero_add] at hloop

end

/-! ## The start of recovery -/

/-- The state in which the log loop starts: the version is taken and the arenas are empty. -/
def logStart (P : Process) (img : Nvm) : World :=
  { P.start img with
    nvm := { img with version := (img.version + 1) % 2 ^ 64 }
    currentVersion := img.version }

/-- The log loop. -/
def logLoop : Prog Unit := forRange recoverLogEntry 0 maxLogEntries

section

variable {P : Process} {L : Layout} {p₀ : ℕ} {img : Nvm}

theorem logInv_start : LogInv P L p₀ img 0 (logStart P img) := by
  have hredo : redoneBefore L p₀ P.nvmStart img 0 = .nothing := by
    unfold redoneBefore
    split
    · rfl
    · rw [if_neg (namedBefore_zero img p₀)]
  refine ⟨rfl, rfl, rfl, rfl, fun j => ?_, fun _ _ => EqOn.refl _ _ _,
    fun _ hnamed => absurd hnamed (namedBefore_zero _ _), fun x _ => ?_, fun a => ?_, ?_, fun _ => rfl,
    ?_, fun k hk => absurd hk (Nat.not_lt_zero k)⟩
  · rw [if_neg (Nat.not_lt_zero j)]
    rfl
  · rw [hredo]
    rfl
  · rw [hredo]
    exact List.Perm.refl _
  · rw [hredo]
    exact List.Perm.refl _
  · exact ⟨fun _ p _ _ => namedBefore_zero img p, fun _ _ => rfl⟩

/-- Initialising the arenas of a process that has none changes nothing. -/
theorem arenaInit_none {w : World} (hw : w.arenas = (P.start img).arenas) (i n : ℕ) :
    forRange (fun a => arenaInit a none) i n w = ([], .ok ((), w)) := by
  induction n generalizing i with
  | zero => rfl
  | succ n ih =>
    have hset : w.setArena i ⟨fun _ => ⟨none, 0, 0, none⟩, .nil⟩ = w := by
      unfold World.setArena
      have harenas : Function.update w.arenas i ⟨fun _ => ⟨none, 0, 0, none⟩, .nil⟩ = w.arenas := by
        rw [hw]
        exact Function.update_eq_self i _
      rw [harenas]
    have hbody : arenaInit i none w = ([], .ok ((), w)) := by
      show (([] : List Event) ++ [],
        Except.ok ((), w.setArena i ⟨fun _ => ⟨none, 0, 0, none⟩, .nil⟩)) = _
      rw [hset]
      rfl
    have hrest := ih (i + 1)
    show CrashM.bind (arenaInit i none) (fun _ => forRange (fun a => arenaInit a none) (i + 1) n) w = _
    unfold CrashM.bind
    rw [hbody]
    simp only [hrest, List.nil_append]

/-- Recovery of the heap is the log loop from `logStart`, then the recovery thread. -/
theorem recoverHeap_result {fuel : ℕ} :
    (recoverHeap fuel (P.start img)).2 =
      ((do logLoop; nvmRecoveryThread fuel img.nextChunk) (logStart P img)).2 := by
  have hinit := @arenaInit_none P img (logStart P img) rfl 0 initialArenas
  show (CrashM.bind (forRange (fun a => arenaInit a none) 0 initialArenas) (fun _ => do
    forRange recoverLogEntry 0 maxLogEntries
    nvmRecoveryThread fuel img.nextChunk) (logStart P img)).2 = _
  unfold CrashM.bind
  rw [hinit]
  rfl

end

end NvmMalloc
