import NvmMalloc.BackgroundScan
import NvmMalloc.ScanSpec

/-!
# The pages of a process

Reference: `src/nvm_malloc.c` (`nvm_recovery_thread`).

`World.pages` is what `ScanSys` keeps of a process.  An uninterrupted recovery thread does to it what a
run of `ScanSys.scan` does (`nvmRecoveryThread_pages`).
-/

namespace NvmMalloc

open Memory CrashM

/-- What is read of the header on page `p`. -/
def pageHeader (m : Mem) (p : ℕ) : PageHeader :=
  ⟨usageAt m p, field m (4096 * p) nPagesF, field m (4096 * p) blockArenaIdF⟩

/-- The headers and trees of a process, with an account and a position of the recovery thread. -/
def World.pages (w : World) (used : ℕ → Option PageUse) (nChunks : ℕ) (pc : WalkPc) : ScanSys where
  header := pageHeader w.nvm.mem
  trees a := (w.arenas a).freePageruns
  freeChunks := w.freeChunks
  nextChunk := w.nvm.nextChunk
  used := used
  nChunks := nChunks
  pc := pc

/-! ## Stores and headers -/

section

variable {m m' : Mem} {p v o n : ℕ}

/-- The bytes of a page that are read as part of a header. -/
def HeaderByte (x : ℕ) : Prop :=
  x % 4096 = 0 ∨ 4 ≤ x % 4096 ∧ x % 4096 < 8 ∨ 40 ≤ x % 4096 ∧ x % 4096 < 44

theorem pageHeader_apply_congr {q : ℕ} (h : ∀ x, HeaderByte x → x / 4096 = q → m' x = m x) :
    pageHeader m' q = pageHeader m q := by
  have hfield : ∀ f ∈ [stateF, nPagesF, blockArenaIdF],
      field m' (4096 * q) f = field m (4096 * q) f := by
    intro f hf
    have hbounds : ∀ x, 4096 * q + f.off ≤ x → x < 4096 * q + f.off + f.width →
        HeaderByte x ∧ x / 4096 = q := by
      intro x hx hx'
      unfold HeaderByte
      simp only [List.mem_cons, List.not_mem_nil, or_false] at hf
      rcases hf with rfl | rfl | rfl <;> simp only [stateF, nPagesF, blockArenaIdF] at hx hx' <;> omega
    exact field_congr fun x hx hx' => h x (hbounds x hx hx').1 (hbounds x hx hx').2
  unfold pageHeader usageAt
  rw [hfield stateF (by simp), hfield nPagesF (by simp), hfield blockArenaIdF (by simp)]

/-- A change that spares the header bytes. -/
theorem pageHeader_congr (h : ∀ x, HeaderByte x → m' x = m x) : pageHeader m' = pageHeader m :=
  funext fun _ => pageHeader_apply_congr fun x hx _ => h x hx

/-- The parts of a page between the header bytes. -/
def Between (o n : ℕ) : Prop := 1 ≤ o ∧ o + n ≤ 4 ∨ 8 ≤ o ∧ o + n ≤ 40 ∨ 44 ≤ o ∧ o + n ≤ 4096

instance (o n : ℕ) : Decidable (Between o n) := inferInstanceAs (Decidable (_ ∨ _ ∨ _))

theorem pageHeader_store (h : Between o n) : pageHeader (store m (4096 * p + o) n v) = pageHeader m := by
  refine pageHeader_congr fun x hx => store_eqOff _ _ _ _ x ?_
  unfold Between at h
  unfold HeaderByte at hx
  omega

end

/-! ## The recovery thread -/

/-- The position of the thread at the head of one of its loops. -/
def ScanPc.walk : ScanPc → WalkPc
  | .chunk i => .chunk i
  | .page i j => .page i j
  | .done => .done

namespace ScanSys

variable {s : ScanSys} {i j : ℕ}

theorem scan_chunk (hpc : s.pc = .chunk i) (hi : i < s.nChunks) :
    s.scan = some { s with
      pc := if (s.header (1024 * i)).usage = usageArena then .page i 1 else .skip i } := by
  unfold scan
  rw [hpc]
  simp only [if_pos hi]
  split <;> rfl

theorem scan_chunk_end (hpc : s.pc = .chunk i) (hi : ¬ i < s.nChunks) :
    s.scan = some { s with pc := .done } := by
  unfold scan
  rw [hpc]
  simp only [if_neg hi]

theorem scan_page (hpc : s.pc = .page i j) (hj : j < 1024) :
    s.scan = some { s with
      pc := if (s.header (1024 * i + j)).usage = usageFree then .found i j
        else if (s.header (1024 * i + j)).usage = usageRun then .page i (j + 1)
        else .advance i j } := by
  unfold scan
  rw [hpc]
  simp only [if_pos hj]
  split
  · rfl
  · split <;> rfl

theorem scan_page_end (hpc : s.pc = .page i j) (hj : ¬ j < 1024) :
    s.scan = some { s with pc := .chunk (i + 1) } := by
  unfold scan
  rw [hpc]
  simp only [if_neg hj]

end ScanSys

/-- The recovery thread gets from one state to another one, undisturbed. -/
abbrev WalkReaches : ScanSys → ScanSys → Prop := Relation.ReflTransGen fun s s' => s.scan = some s'

section

variable {w w' : World} {used : ℕ → Option PageUse} {nChunks p i j : ℕ}

@[simp] theorem pages_setMem {m : Mem} {pc : WalkPc} :
    (w.setMem m).pages used nChunks pc = { w.pages used nChunks pc with header := pageHeader m } := rfl

@[simp] theorem pages_addRun {x : ArenaRun} {pc : WalkPc} :
    (w.addRun x).pages used nChunks pc = w.pages used nChunks pc := rfl

theorem pages_setTree {a : ℕ} {t : SearchTree ArenaBlock} {pc : WalkPc} :
    (w.setTree a t).pages used nChunks pc =
      { w.pages used nChunks pc with trees := Function.update (w.pages used nChunks pc).trees a t } := by
  have htrees : (fun a' => ((w.setTree a t).arenas a').freePageruns) =
      Function.update (fun a' => (w.arenas a').freePageruns) a t := by
    funext a'
    simp only [World.setTree, World.setArena, Function.update_apply]
    split <;> rfl
  unfold World.pages
  rw [htrees]
  rfl

/-- A VHeader that is entered into a run header does not concern the pages. -/
theorem pageHeader_enterRun {m : Mem} {run cur : ℕ} :
    pageHeader (enterRun m (4096 * p) run cur) = pageHeader m := by
  unfold enterRun
  rw [pageHeader_store (by decide), pageHeader_store (by decide)]

/-- One iteration of the page loop, as far as the pages go. -/
theorem scanPage_pages (used : ℕ → Option PageUse) (nChunks : ℕ) (pc : WalkPc) :
    Located (scanPage (4096 * p)) (fun _ => True)
      (fun n w' => if usageAt w.nvm.mem p = usageFree then
          (w.pages used nChunks pc).insert p = some (w'.pages used nChunks pc) ∧
            n = (pageHeader w'.nvm.mem p).count
        else w'.pages used nChunks pc = w.pages used nChunks pc ∧
          n = if usageAt w.nvm.mem p = usageRun then 1 else (pageHeader w.nvm.mem p).count)
      (fun _ => True) w := by
  unfold scanPage
  rw [located_bind, located_loadField, located_ite, located_ite]
  refine ⟨fun hfree => ?_, fun hfree => ⟨fun hrun => ?_, fun hrun => ?_⟩⟩
  · have husage : usageAt w.nvm.mem p = usageFree := hfree
    unfold arenaCreateBlockHeader addFreePagerun
    simp only [located_bind, located_loadField, located_ite, located_pure, located_throw, located_modify,
      if_pos husage]
    refine ⟨fun harena => ⟨?_, rfl⟩, fun _ => trivial⟩
    have harena' : ((w.pages used nChunks pc).header p).arenaId < initialArenas := harena
    rw [pages_setTree, ScanSys.insert]
    simp only [if_pos harena']
    rfl
  · have husage : usageAt w.nvm.mem p ≠ usageFree := hfree
    have hrun' : usageAt w.nvm.mem p = usageRun := hrun
    unfold scanRun
    simp only [located_bind, located_loadField, located_get, located_ite, located_pure,
      located_arenaCreateRunHeader, located_storeField, located_persist, if_neg husage, if_pos hrun']
    refine ⟨fun _ => ⟨fun _ => ⟨fun _ => ⟨trivial, trivial, ?_, trivial⟩, fun _ => ⟨rfl, trivial⟩⟩,
      fun _ => trivial⟩, fun _ => ⟨trivial, trivial⟩⟩
    show (((w.addRun _).setMem _).setMem _).pages used nChunks pc = _
    rw [setMem_setMem, pages_setMem, pages_addRun]
    have hheader : pageHeader (enterRun w.nvm.mem (4096 * p) w.nVheaders w.currentVersion) =
        pageHeader w.nvm.mem := pageHeader_enterRun
    exact congrArg (fun h => { w.pages used nChunks pc with header := h }) hheader
  · have husage : usageAt w.nvm.mem p ≠ usageFree := hfree
    have hrun' : usageAt w.nvm.mem p ≠ usageRun := hrun
    rw [located_loadField, if_neg husage, if_neg hrun']
    exact ⟨rfl, rfl⟩

/-- The page loop at a free page run: read the usage, insert the node, read the length. -/
theorem walk_free (hj : j < 1024) (hfree : usageAt w.nvm.mem (1024 * i + j) = usageFree)
    (hins : (w.pages used nChunks (.found i j)).insert (1024 * i + j) =
      some (w'.pages used nChunks (.found i j))) :
    WalkReaches (w.pages used nChunks (.page i j))
      (w'.pages used nChunks (.page i (j + (pageHeader w'.nvm.mem (1024 * i + j)).count))) := by
  refine .head (b := w.pages used nChunks (.found i j)) ?_
    (.head (b := w'.pages used nChunks (.advance i j)) ?_ (.single rfl))
  · have husage : ((w.pages used nChunks (.page i j)).header (1024 * i + j)).usage = usageFree := hfree
    rw [ScanSys.scan_page rfl hj, if_pos husage]
    rfl
  · show (ScanSys.insert _ (1024 * i + j)).map _ = _
    rw [hins]
    rfl

/-- The page loop at another header: step over a run, or read the length. -/
theorem walk_other (hj : j < 1024) (hfree : usageAt w.nvm.mem (1024 * i + j) ≠ usageFree) :
    WalkReaches (w.pages used nChunks (.page i j)) (w.pages used nChunks (.page i (j +
      if usageAt w.nvm.mem (1024 * i + j) = usageRun then 1
      else (pageHeader w.nvm.mem (1024 * i + j)).count))) := by
  have husage : ((w.pages used nChunks (.page i j)).header (1024 * i + j)).usage ≠ usageFree := hfree
  have hscan := ScanSys.scan_page (s := w.pages used nChunks (.page i j)) rfl hj
  rw [if_neg husage] at hscan
  by_cases hrun : ((w.pages used nChunks (.page i j)).header (1024 * i + j)).usage = usageRun
  · rw [if_pos hrun] at hscan
    rw [if_pos (show usageAt w.nvm.mem (1024 * i + j) = usageRun from hrun)]
    exact .single hscan
  · rw [if_neg hrun] at hscan
    rw [if_neg (show usageAt w.nvm.mem (1024 * i + j) ≠ usageRun from hrun)]
    exact .head hscan (.single rfl)

/-- An iteration of one of the loops is a few steps of the recovery thread. -/
theorem ScanStep.pages {pc pc' : ScanPc} (h : ScanStep nChunks (pc, w) (pc', w')) :
    WalkReaches (w.pages used nChunks pc.walk) (w'.pages used nChunks pc'.walk) := by
  obtain ⟨hdone, hstep⟩ := h
  cases pc with
  | chunk i =>
    have haddr : i * chunkSize = 4096 * (1024 * i) := by
      simp only [chunkSize]
      omega
    by_cases hi : i < nChunks
    · have hscan := ScanSys.scan_chunk (s := w.pages used nChunks (.chunk i)) rfl hi
      by_cases husage : ((w.pages used nChunks (.chunk i)).header (1024 * i)).usage = usageArena
      · rw [scanStep_arena hi (by rw [haddr]; exact husage)] at hstep
        obtain ⟨rfl, rfl⟩ := Prod.mk.inj (Except.ok.inj hstep)
        rw [if_pos husage] at hscan
        exact .single hscan
      · rw [scanStep_skip hi (by rw [haddr]; exact husage), haddr] at hstep
        obtain ⟨rfl, rfl⟩ := Prod.mk.inj (Except.ok.inj hstep)
        rw [if_neg husage] at hscan
        exact .head hscan (.single rfl)
    · rw [scanStep_end hi] at hstep
      obtain ⟨rfl, rfl⟩ := Prod.mk.inj (Except.ok.inj hstep)
      exact .single (ScanSys.scan_chunk_end rfl hi)
  | page i j =>
    by_cases hj : j < 1024
    · have haddr : i * chunkSize + j * blockSize = 4096 * (1024 * i + j) := by
        simp only [chunkSize, blockSize]
        omega
      rw [scanStep, if_pos (show j < chunkSize / blockSize from hj), haddr, bind_result] at hstep
      obtain ⟨n, w₁, hpage, hnext⟩ := hstep
      obtain ⟨rfl, rfl⟩ := Prod.mk.inj (Except.ok.inj hnext)
      by_cases hfree : usageAt w.nvm.mem (1024 * i + j) = usageFree
      · have hscan := wp_result (scanPage_pages used nChunks (.found i j)) hpage
        rw [if_pos hfree] at hscan
        obtain ⟨hins, rfl⟩ := hscan
        exact walk_free hj hfree hins
      · have hscan := wp_result (scanPage_pages used nChunks (.page i j)) hpage
        rw [if_neg hfree] at hscan
        obtain ⟨hsame, rfl⟩ := hscan
        have hmoved : ∀ pc, w₁.pages used nChunks pc = w.pages used nChunks pc := fun pc =>
          congrArg (fun s : ScanSys => { s with pc := pc }) hsame
        show WalkReaches _ (w₁.pages used nChunks _)
        rw [hmoved]
        exact walk_other hj hfree
    · rw [scanStep_pageEnd hj] at hstep
      obtain ⟨rfl, rfl⟩ := Prod.mk.inj (Except.ok.inj hstep)
      exact .single (ScanSys.scan_page_end rfl hj)
  | done => exact absurd rfl hdone

theorem ScanReaches.pages {x y : ScanPc × World} (h : ScanReaches nChunks x y) :
    WalkReaches (x.2.pages used nChunks x.1.walk) (y.2.pages used nChunks y.1.walk) := by
  induction h with
  | refl => exact .refl
  | tail _ hstep ih => exact ih.trans hstep.pages

/-- **A recovery thread that nobody disturbs takes the steps of `ScanSys.scan` to the end.** -/
theorem nvmRecoveryThread_pages {fuel : ℕ}
    (h : (nvmRecoveryThread fuel nChunks w).2 = .ok ((), w')) :
    WalkReaches (w.pages used nChunks (.chunk 0)) (w'.pages used nChunks .done) := by
  rw [nvmRecoveryThread] at h
  have hrun : ScanReaches nChunks (.chunk 0, w) (.done, w') := scanChunks_run h
  exact hrun.pages

end

end NvmMalloc
