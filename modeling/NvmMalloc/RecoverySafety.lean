import NvmMalloc.ScanSpec
import NvmMalloc.Reachability

/-!
# Recovery on the images of one process

Reference: `src/nvm_malloc.c` (`nvm_initialize_recovered`, `nvm_recovery_thread`), `src/object_table.c`
(`ot_recover`).

What recovery meets on the images a crash can leave, and which calls of the crashed process can stop
it: the recovery thread gets ahead with every iteration, what is taken for a run header is one, the
assertions of the log loop hold, and the log loop stores into headers and link words only.
-/

namespace NvmMalloc

open Memory CrashM

/-! ## Images that recovery can cope with -/

section

variable {P : Process} {B : Blame} {L : Layout} {p₀ i p x : ℕ} {t : Tile} {img : Nvm} {w : World}
  {m : Mem} {cur : ℕ}

/-- Without an old link the words that are replayed lie outside all headers. -/
theorem Blames.wordsClear (h : Blames B L img) (himg : ImgInv L p₀ img) (hstale : ¬ B.stale) :
    WordsClear L img := by
  intro p t hp _ hpend q u hq
  rcases h.words hp hpend with hst | ⟨heq, hbodies⟩
  · exact absurd hst hstale
  · rw [heq]
    exact hbodies.outside himg.ok hq

/-- A slot lies outside all headers. -/
theorem offHeaders_slot {s : ℕ} (hlo : otSlotAddr s ≤ x) (hhi : x < otSlotAddr s + 64) :
    OffHeaders L x := by
  intro p t hp
  have hbounds := otSlotAddr_bounds (s := s)
  omega

/-- The words that the log loop replays miss the object table. -/
theorem Blames.outside_slots (h : Blames B L img) (himg : ImgInv L p₀ img) (hstale : ¬ B.stale)
    {s : ℕ} (hs : s < 1260) :
    Outside (redoneBefore L p₀ P.nvmStart img i).words (otSlotAddr s) 64 := by
  have hnil : ∀ a n, Outside Redo.nothing.words a n := fun a n x hx => absurd hx (by simp [Redo.nothing])
  have hbounds := otSlotAddr_bounds (s := s)
  unfold redoneBefore
  split
  · exact hnil _ _
  rename_i t hp
  split
  swap
  · exact hnil _ _
  by_cases hpend : Pending img.mem p₀
  swap
  · rw [redo_of_settled hpend]
    exact hnil _ _
  -- a header in transition excludes stuck tiles, so the initial chunks have their header pages
  have hunstuck : ∀ q n, L q ≠ some (.stuck n) := fun q n hq =>
    absurd hpend (himg.calm hq hp).not_pending
  obtain ⟨heq, hbodies⟩ := (h.words hp hpend).resolve_left hstale
  have hout : Outside (recordedWords img.mem (4096 * p₀) t.on) (otSlotAddr s) 64 := by
    rw [heq]
    intro y hy
    by_cases hc : s / 63 < img.nextChunk
    · have harena := himg.base hunstuck (s / 63) (by simp only [initialArenas]; omega) hc
      have hd := (hbodies y hy).disjoint_arena himg.ok harena
      omega
    · have hlt := (hbodies y hy).lt himg.ok
      have hle : 4194304 * img.nextChunk ≤ 4194304 * (s / 63) := Nat.mul_le_mul_left _ (by omega)
      omega
  show Outside (redoneWords P.nvmStart img.mem p₀ t.on) (otSlotAddr s) 64
  unfold redoneWords
  rw [if_pos hpend]
  exact outside_replayedWords hout

/-- The log loop leaves the object table alone. -/
theorem LogInv.slot_eqOn (hlog : LogInv P L p₀ img i w) (h : Blames B L img) (himg : ImgInv L p₀ img)
    (hstale : ¬ B.stale) {s : ℕ} (hs : s < 1260) : EqOn img.mem w.nvm.mem (otSlotAddr s) 64 := by
  intro x hx hx'
  rw [hlog.body x (offHeaders_slot hx hx')]
  exact (h.outside_slots himg hstale hs).eqOn img.mem x hx hx'

/-- The log loop never clears the state byte of a page run. -/
theorem LogInv.state_ne_zero (hlog : LogInv P L p₀ img i w) (h : Blames B L img)
    (himg : ImgInv L p₀ img) (hconv : ¬ B.convert) {n : ℕ} {o : Owner} (hp : L p = some (.block n o)) :
    field w.nvm.mem (4096 * p) stateF ≠ 0 := by
  have hne : field img.mem (4096 * p) stateF ≠ 0 := fun hst => hconv (h.zero hp hst).1
  by_cases hnamed : NamedBefore img i p
  · have hst := (himg.hdr hp).2.2
    have hredone : field w.nvm.mem (4096 * p) stateF =
      redoneState (field img.mem (4096 * p) stateF) := (hlog.done hp hnamed).2
    rw [hredone]
    simp only [List.mem_cons, List.not_mem_nil, or_false] at hst
    rcases hst with hst | hst | hst | hst | hst | hst
    · exact absurd hst hne
    all_goals
      rw [hst]
      decide
  · rwa [field_eqOn (hlog.same hp hnamed) (by decide)]

/-- A word that recovery is told of and takes for a pointer into a run names a complete run header. -/
theorem Blames.runHdr (h : Blames B L img) (hconv : ¬ B.convert) (hp : L p = some t)
    (hfits : t.Fits p) (hnames : Names x p t) (hmention : Mentions img x) (hhdr : HdrOk m p t)
    (hne : ∀ n o, t = .block n o → field m (4096 * p) stateF ≠ 0)
    (hid : identifyUsage m x = some .run) : RunHdr m (x / blockSize * blockSize) := by
  rw [hnames.header]
  cases t with
  | arena => exact absurd hnames id
  | huge n o =>
    simp only [Names] at hnames
    simp only [Tile.Fits] at hfits
    rw [hnames, identifyUsage, if_pos (by simp only [chunkSize, headerSize]; omega)] at hid
    exact absurd hid (by simp)
  | block n o =>
    simp only [Names] at hnames
    have hst := hhdr.2.2
    simp only [List.mem_cons, List.not_mem_nil, or_false] at hst
    rw [hnames, identifyUsage_page m hfits.1, if_pos ?_] at hid
    · exact absurd hid (by simp)
    · rcases hst with hst | hst | hst | hst | hst | hst
      · exact absurd hst (hne n o rfl)
      all_goals
        rw [hst]
        decide
  | run k => exact hhdr.1
  | stuck n =>
    obtain ⟨-, -, hno⟩ := (h.stuck hp).resolve_left fun hc => hconv hc.1
    exact absurd (hnames.1 ▸ hmention) hno

end

/-! ## The recovery thread ends -/

/-- In its run on `img` the recovery thread stands at the loop head `pc` with state `w`. -/
def ScanVisits (P : Process) (img : Nvm) (pc : ScanPc) (w : World) : Prop :=
  ∃ w₀, (logLoop (logStart P img)).2 = .ok ((), w₀) ∧
    ScanReaches img.nextChunk (.chunk 0, w₀) (pc, w)

/-- Every iteration of the recovery thread on `img` returns and gets ahead, and the thread ends. -/
structure ScanTerminates (P : Process) (img : Nvm) : Prop where
  progress : ∀ pc w, ScanVisits P img pc w → pc ≠ .done →
    ∃ pc' w', (scanStep img.nextChunk pc w).2 = .ok (pc', w') ∧ pc.Advances pc'
  ends : ∀ w₀, (logLoop (logStart P img)).2 = .ok ((), w₀) →
    ∃ fuel w, (nvmRecoveryThread fuel img.nextChunk w₀).2 = .ok ((), w)

section

variable {P P' : Process} {s : Sys} {op : Op} {img : Nvm} {L : Layout} {p₀ : ℕ} {w : World} {pc : ScanPc}

/-- What the log loop leaves when it returns. -/
theorem logInv_of_logLoop (himg : ImgInv L p₀ img) (hclear : WordsClear L img)
    (hrun : (logLoop (logStart P img)).2 = .ok ((), w)) : LogInv P L p₀ img maxLogEntries w :=
  (logLoop_located himg hclear logInv_start le_rfl).result hrun

/-- What holds wherever the recovery thread stands. -/
theorem ScanVisits.scanOk (hv : ScanVisits P img pc w) (himg : ImgInv L p₀ img)
    (hclear : WordsClear L img) :
    ScanAt L img.nextChunk pc ∧ ScanOk L img.nextChunk w := by
  obtain ⟨w₀, hrun, hreach⟩ := hv
  have hok := (logInv_of_logLoop himg hclear hrun).scanOk himg
  exact hok.reaches (scanAt_start himg.ok) hreach

/-- **The recovery scan terminates** on the images of calls that neither extend the heap nor turn a page
run into a run nor commit an old link. -/
theorem scan_terminates (hs : Reachable P s) (hvalid : op.Valid s) (himg : img ∈ cuts op.prog s.w)
    (hgrows : ¬ op.grows s) (hconverts : ¬ op.converts s) (hstale : ¬ op.stale s) :
    ScanTerminates P' img := by
  obtain ⟨L, p₀, hinv, -, hblames⟩ := crashOk_of_cut hs hvalid himg
  have hclear : WordsClear L img := hblames.wordsClear hinv hstale
  have hunstuck : ∀ p n, L p ≠ some (.stuck n) := by
    intro p n hp
    rcases hblames.stuck hp with hconv | ⟨hgrow, -⟩
    · exact hconverts hconv.1
    · exact hgrows hgrow
  refine ⟨fun pc w hv hdone => ?_, fun w₀ hrun => ?_⟩
  · obtain ⟨hat, hok⟩ := hv.scanOk hinv hclear
    obtain ⟨pc', w', hstep, -, hadv⟩ := hok.progress hunstuck hat hdone
    exact ⟨pc', w', hstep, hadv⟩
  · obtain ⟨fuel, w, -, hthread⟩ :=
      ((logInv_of_logLoop hinv hclear hrun).scanOk hinv).terminates hunstuck
    exact ⟨fuel, w, hthread⟩

end

/-- After one small reservation, wherever its activation is cut. -/
theorem scan_terminates_activate : ∃ s, Reachable sampleProcess s ∧
    (Op.activate 4190272 none none).Valid s ∧
    ∀ img ∈ cuts (Op.activate 4190272 none none).prog s.w, ScanTerminates sampleProcess img := by
  have hany : ((sampleHistory [.reserve 0 100]).any fun s =>
      decide ((Op.activate 4190272 none none).Valid s)) = true := by
    decide +kernel
  obtain ⟨s, hs, hvalid⟩ := Process.exists_reachable hany
  refine ⟨s, hs, of_decide_eq_true hvalid, fun img himg => ?_⟩
  refine scan_terminates hs (of_decide_eq_true hvalid) himg id id fun hstale => ?_
  exact absurd hstale.1 (by decide)
/-- NVM right after `activate_more_chunks` in `nvm_initialize_empty`: twenty chunks of zeros. -/
def unwrittenNvm : Nvm := ⟨fun _ => 0, 20, 1, fun _ => 0⟩

theorem crashImage_unwritten : CrashImage sampleProcess unwrittenNvm := by
  have hevent : (nvmInitialize sampleProcess.junk 20 false (sampleProcess.start blankNvm)).1[3]? =
    some (Event.storeMeta unwrittenNvm) := rfl
  exact .start (List.mem_filterMap.mpr ⟨_, List.mem_of_getElem? hevent, rfl⟩)

/-- On chunks of zeros the chunk loop adds zero chunks for ever. -/
theorem scan_stays_at_unwritten_chunk :
    ∃ img, CrashImage sampleProcess img ∧ ¬ ScanTerminates sampleProcess img := by
  refine ⟨unwrittenNvm, crashImage_unwritten, fun hterm => ?_⟩
  have hrun : (logLoop (logStart sampleProcess unwrittenNvm)).2 =
      .ok ((), logStart sampleProcess unwrittenNvm) := rfl
  have hstep : (scanStep 20 (.chunk 0) (logStart sampleProcess unwrittenNvm)).2 =
      .ok (.chunk 0, logStart sampleProcess unwrittenNvm) :=
    scanStep_skip (by decide) (by decide)
  obtain ⟨pc', w', hstep', hadv⟩ := hterm.progress _ _ ⟨_, hrun, .refl⟩ (by simp)
  rw [show unwrittenNvm.nextChunk = 20 from rfl, hstep] at hstep'
  simp only [Except.ok.injEq, Prod.mk.injEq] at hstep'
  rw [← hstep'.1] at hadv
  exact absurd hadv (Nat.lt_irrefl 0)

/-- An empty entry is skipped. -/
theorem recoverLogEntry_empty {w : World} {i : ℕ} (hlog : w.nvm.log i = 0) :
    (recoverLogEntry i w).2 = .ok ((), w) := by
  unfold recoverLogEntry
  rw [bind_result]
  exact ⟨w, w, rfl, by rw [if_pos hlog]; rfl⟩

/-- An empty log is replayed without effect. -/
theorem forRange_recoverLogEntry_of_empty {w : World} {i n : ℕ} (hlog : ∀ j < i + n, w.nvm.log j = 0) :
    (forRange recoverLogEntry i n w).2 = .ok ((), w) := by
  induction n generalizing i with
  | zero => rfl
  | succ n ih =>
    show ((recoverLogEntry i >>= fun _ => forRange recoverLogEntry (i + 1) n) w).2 = _
    rw [bind_result]
    exact ⟨(), w, recoverLogEntry_empty (hlog i (by omega)), ih fun j hj => hlog j (by omega)⟩

/-! ## Run headers -/

/-- The images of `CrashImage` in which the call that was cut meets `ok`. -/
inductive CrashImageIf (P : Process) (ok : Sys → Op → Prop) : Nvm → Prop where
  | start {nvm img : Nvm} {fuel : ℕ}
      (himg : img ∈ (nvmInitialize P.junk fuel false (P.start nvm)).1.filterMap Event.image?) :
      CrashImageIf P ok img
  | call {s : Sys} {op : Op} {img : Nvm} (hs : Reachable P s) (hvalid : op.Valid s) (hok : ok s op)
      (himg : img ∈ cuts op.prog s.w) : CrashImageIf P ok img

/-- What a crash can be blamed on. -/
theorem CrashImageIf.crashOk {P : Process} {ok : Sys → Op → Prop} {img : Nvm}
    (h : CrashImageIf P ok img) :
    ∃ B live, CrashOk B live img ∧ (B = .growth ∨ ∃ s op, ok s op ∧ B = op.blame s) := by
  cases h with
  | @start nvm img fuel himg =>
    obtain ⟨e, he, heq⟩ := List.mem_filterMap.mp himg
    exact ⟨_, _, (nvmInitialize_fresh_spec P nvm P.junk fuel).1 e he img heq, Or.inl rfl⟩
  | call hs hvalid hok himg => exact ⟨_, _, crashOk_of_cut hs hvalid himg, Or.inr ⟨_, _, hok, rfl⟩⟩

/-- Recovery reads run headers in three places: in the log loop, in the recovery thread and in
`ot_recover`, which may run at the same time as the thread. -/
structure RunHeadersOk (P : Process) (img : Nvm) : Prop where
  log : ∀ i < maxLogEntries, ∀ w, (forRange recoverLogEntry 0 i (logStart P img)).2 = .ok ((), w) →
    w.nvm.log i ≠ 0 → identifyUsage w.nvm.mem (w.nvm.log i) = some .run →
    RunHdr w.nvm.mem (w.nvm.log i / blockSize * blockSize)
  thread : ∀ i j w, ScanVisits P img (.page i j) w → j < chunkSize / blockSize →
    getUsage (field w.nvm.mem (i * chunkSize + j * blockSize) stateF) = usageRun →
    RunHdr w.nvm.mem (i * chunkSize + j * blockSize)
  table : ∀ pc w, ScanVisits P img pc w → ∀ s < 1260,
    field w.nvm.mem (otSlotAddr s) stateF = stateInitializing →
    identifyUsage w.nvm.mem (field w.nvm.mem (otSlotAddr s) otPtrF) = some .run →
    RunHdr w.nvm.mem (field w.nvm.mem (otSlotAddr s) otPtrF / blockSize * blockSize)

section

variable {P : Process} {B : Blame} {L : Layout} {p₀ : ℕ} {img : Nvm} {w : World} {pc : ScanPc}

/-- The recovery thread leaves the state bytes alone. -/
theorem ScanVisits.state_eq (hv : ScanVisits P img pc w) (himg : ImgInv L p₀ img)
    (hclear : WordsClear L img) : ∃ w₀, LogInv P L p₀ img maxLogEntries w₀ ∧
      (∀ p t, L p = some t → field w.nvm.mem (4096 * p) stateF = field w₀.nvm.mem (4096 * p) stateF) ∧
      ∀ s, EqOn w₀.nvm.mem w.nvm.mem (otSlotAddr s) 64 := by
  obtain ⟨w₀, hrun, hreach⟩ := hv
  have hlog := logInv_of_logLoop himg hclear hrun
  have hok := hlog.scanOk himg
  have hsame : ∀ x, (∀ q u, L q = some u → ¬ ScanByte q x) → w.nvm.mem x = w₀.nvm.mem x :=
    fun x hx => hok.reaches_same (scanAt_start himg.ok) hreach hx
  refine ⟨w₀, hlog, fun p t hp => field_congr fun x hx hx' => hsame x fun q u hq hbyte => ?_,
    fun s x hx hx' => hsame x fun q u hq hbyte => ?_⟩
  · simp only [stateF] at hx hx'
    unfold ScanByte at hbyte
    omega
  · have hoff := offHeaders_slot (L := L) hx hx' q u hq
    unfold ScanByte at hbyte
    omega

/-- The run headers that the log loop meets. -/
theorem Blames.log_runHdr (h : Blames B L img) (himg : ImgInv L p₀ img) (hconv : ¬ B.convert)
    (hstale : ¬ B.stale) {i : ℕ} (hi : i < maxLogEntries)
    (hrun : (forRange recoverLogEntry 0 i (logStart P img)).2 = .ok ((), w)) (hne : w.nvm.log i ≠ 0)
    (hid : identifyUsage w.nvm.mem (w.nvm.log i) = some .run) :
    RunHdr w.nvm.mem (w.nvm.log i / blockSize * blockSize) := by
  have hclear : WordsClear L img := h.wordsClear himg hstale
  have hlog := (logLoop_located himg hclear (logInv_start (P := P)) hi.le).result hrun
  have hentry : w.nvm.log i = img.log i := by rw [hlog.log, if_neg (Nat.lt_irrefl i)]
  rw [hentry] at hne hid ⊢
  obtain ⟨p, t, hp, hnames⟩ := himg.log i hi hne
  exact h.runHdr hconv hp (himg.ok.fits hp) hnames (Or.inl ⟨i, hi, rfl⟩) (hlog.hdrOk himg hp)
    (fun n o ht => hlog.state_ne_zero h himg hconv (ht ▸ hp)) hid

/-- The run headers that the recovery thread meets. -/
theorem Blames.thread_runHdr (h : Blames B L img) (himg : ImgInv L p₀ img) (hconv : ¬ B.convert)
    (hstale : ¬ B.stale) {i j : ℕ} (hv : ScanVisits P img (.page i j) w)
    (hj : j < chunkSize / blockSize)
    (husage : getUsage (field w.nvm.mem (i * chunkSize + j * blockSize) stateF) = usageRun) :
    RunHdr w.nvm.mem (i * chunkSize + j * blockSize) := by
  have hclear : WordsClear L img := h.wordsClear himg hstale
  obtain ⟨⟨hi, -, hlo, -, htile⟩, hok⟩ := hv.scanOk himg hclear
  have hpages : chunkSize / blockSize = 1024 := by decide
  have haddr : i * chunkSize + j * blockSize = 4096 * (1024 * i + j) := by
    simp only [chunkSize, blockSize]
    omega
  obtain ⟨t, ht⟩ := Option.isSome_iff_exists.mp (htile (by omega))
  rw [haddr] at husage ⊢
  rcases hok.page_cases ht (by omega) with ⟨-, -, -, hrun⟩ | ⟨n, rfl, -⟩
  · exact hrun husage
  · -- a stuck tile that growing the heap left is no run, and the log loop has not changed it
    obtain ⟨-, hno, -⟩ := (h.stuck ht).resolve_left fun hc => hconv hc.1
    obtain ⟨w₀, hlog, hstate, -⟩ := hv.state_eq himg hclear
    have hnamed : ¬ NamedBefore img maxLogEntries (1024 * i + j) := fun hnamed =>
      absurd (hlog.done ht hnamed) id
    rw [hstate _ _ ht, field_eqOn (hlog.same ht hnamed) (by decide)] at husage
    exact absurd husage hno

/-- The run headers that `ot_recover` meets. -/
theorem Blames.table_runHdr (h : Blames B L img) (himg : ImgInv L p₀ img) (hconv : ¬ B.convert)
    (hstale : ¬ B.stale) (hv : ScanVisits P img pc w) {s : ℕ} (hs : s < 1260)
    (hst : field w.nvm.mem (otSlotAddr s) stateF = stateInitializing)
    (hid : identifyUsage w.nvm.mem (field w.nvm.mem (otSlotAddr s) otPtrF) = some .run) :
    RunHdr w.nvm.mem (field w.nvm.mem (otSlotAddr s) otPtrF / blockSize * blockSize) := by
  have hclear : WordsClear L img := h.wordsClear himg hstale
  obtain ⟨w₀, hlog, hstate, hslots⟩ := hv.state_eq himg hclear
  have hslot : EqOn img.mem w.nvm.mem (otSlotAddr s) 64 :=
    (hlog.slot_eqOn h himg hstale hs).trans (hslots s)
  rw [field_eqOn hslot (by decide)] at hst hid ⊢
  obtain ⟨p, t, hp, hnames⟩ := himg.slots s hs hst
  refine h.runHdr hconv hp (himg.ok.fits hp) hnames (Or.inr ⟨s, hs, hst, rfl⟩)
    ((hv.scanOk himg hclear).2.hdr hp) (fun n o ht => ?_) hid
  rw [hstate _ _ hp]
  exact hlog.state_ne_zero h himg hconv (ht ▸ hp)

end

/-- **Run headers seen by recovery are well formed**, unless the call that was cut turned a page run into
a run or committed an old link. -/
theorem run_headers_wellFormed {P P' : Process} {img : Nvm}
    (himg : CrashImageIf P (fun s op => ¬ op.converts s ∧ ¬ op.stale s) img) : RunHeadersOk P' img := by
  obtain ⟨B, live, ⟨L, p₀, hinv, -, hblames⟩, hB⟩ := himg.crashOk
  have hno : ¬ B.convert ∧ ¬ B.stale := by
    rcases hB with rfl | ⟨s, op, hok, rfl⟩
    · exact ⟨id, id⟩
    · exact hok
  exact ⟨fun i hi w hrun => hblames.log_runHdr hinv hno.1 hno.2 hi hrun,
    fun i j w hv => hblames.thread_runHdr hinv hno.1 hno.2 hv,
    fun pc w hv s hs => hblames.table_runHdr hinv hno.1 hno.2 hv hs⟩

/-- After one small reservation, wherever its activation is cut. -/
theorem run_headers_wellFormed_activate : ∃ s, Reachable sampleProcess s ∧
    (Op.activate 4190272 none none).Valid s ∧
    ∀ img ∈ cuts (Op.activate 4190272 none none).prog s.w, RunHeadersOk sampleProcess img := by
  have hany : ((sampleHistory [.reserve 0 100]).any fun s =>
      decide ((Op.activate 4190272 none none).Valid s)) = true := by
    decide +kernel
  obtain ⟨s, hs, hvalid⟩ := Process.exists_reachable hany
  refine ⟨s, hs, of_decide_eq_true hvalid,
    fun img himg => run_headers_wellFormed (P := sampleProcess) ?_⟩
  exact .call hs (of_decide_eq_true hvalid) ⟨id, fun hstale => absurd hstale.1 (by decide)⟩ himg
/-- The calls after which arena 0 has one free page left. -/
def onePageLeft : List Op := [.reserve 0 2093056, .reserve 0 2093056]

/-- A cut of `arena_create_run` between the store of the state byte and that of `n_bytes`. -/
def halfConverted (img : Nvm) : Bool :=
  (List.range maxLogEntries).all (fun i => img.log i = 0) ∧ 0 < img.nextChunk ∧
    getUsage (field img.mem 0 stateF) = usageArena ∧
    getUsage (field img.mem 4096 stateF) = usageRun ∧ field img.mem 4096 nBytesF = 0

/-- The last page of an arena is turned into a run and the state byte says so before `n_bytes` is
stored. -/
theorem run_header_without_size : ∃ s img, Reachable sampleProcess s ∧ (Op.reserve 0 100).Valid s ∧
    img ∈ cuts (Op.reserve 0 100).prog s.w ∧ ¬ RunHeadersOk sampleProcess img := by
  have hany : ((sampleHistory onePageLeft).any fun s =>
      (cuts (Op.reserve 0 100).prog s.w).any halfConverted) = true := by
    decide +kernel
  obtain ⟨s, hs, hcut⟩ := Process.exists_reachable hany
  obtain ⟨img, himg, hhalf⟩ := List.any_eq_true.mp hcut
  obtain ⟨hlog, hpos, harena, hrun, hbytes⟩ := of_decide_eq_true hhalf
  refine ⟨s, img, hs, show 0 < initialArenas ∧ 1 ≤ 100 ∧ 100 ≤ maxNvmSpace by decide, himg,
    fun hok => ?_⟩
  have hloop : (logLoop (logStart sampleProcess img)).2 = .ok ((), logStart sampleProcess img) := by
    refine forRange_recoverLogEntry_of_empty fun j hj => ?_
    exact of_decide_eq_true (List.all_eq_true.mp hlog j (List.mem_range.mpr (by omega)))
  have hstep : (scanStep img.nextChunk (.chunk 0) (logStart sampleProcess img)).2 =
      .ok (.page 0 1, logStart sampleProcess img) :=
    scanStep_arena hpos (by rw [Nat.zero_mul]; exact harena)
  have hhdr := hok.thread 0 1 _ ⟨_, hloop, .single ⟨by simp, hstep⟩⟩ (by decide)
    (by rw [show 0 * chunkSize + 1 * blockSize = 4096 by decide]; exact hrun)
  obtain ⟨c, -, hsize⟩ := hhdr.1
  rw [show 0 * chunkSize + 1 * blockSize = 4096 by decide] at hsize
  have hbytes' : field (logStart sampleProcess img).nvm.mem 4096 nBytesF = 0 := hbytes
  omega

/-! ## Assertions -/

section

variable {P : Process} {B : Blame} {L : Layout} {p₀ : ℕ} {img : Nvm} {e : Stop}

/-- No assertion of the log loop fails. -/
theorem Blames.logStops (h : Blames B L img) (himg : ImgInv L p₀ img)
    (hconv : ¬ (B.convert ∧ B.logged)) (hfresh : ¬ B.fresh) (hstop : LogStops L img e) : e ≠ .assertFailed := by
  obtain ⟨i, hi, p, t, hp, hne, hnames, ⟨-, hst⟩ | ⟨rfl, -⟩⟩ := hstop
  swap
  · decide
  have hhdr := himg.hdr hp
  exfalso
  cases t with
  | arena => exact hnames
  | huge n o =>
    have hstates := hhdr.2
    simp only [List.mem_cons, List.not_mem_nil, or_false] at hst hstates
    rcases hst with hst | hst | hst
    · rw [hst] at hstates
      exact absurd hstates (by decide)
    · rw [hst] at hstates
      exact absurd hstates (by decide)
    · exact hfresh (h.fresh hp hi hnames hst)
  | block n o =>
    have hstates := hhdr.2.2
    simp only [List.mem_cons, List.not_mem_nil, or_false] at hst hstates
    rcases hst with hst | hst | hst
    · exact hconv ⟨(h.zero hp hst).1, (h.zero hp hst).2 i hi hnames⟩
    · exact hne (himg.initial hp hst i hi)
    · rw [hst] at hstates
      exact absurd hstates (by decide)
  | run k =>
    have hstates := hhdr.2.1
    simp only [List.mem_cons, List.not_mem_nil, or_false] at hst hstates
    rcases hst with hst | hst | hst <;>
    · rw [hst] at hstates
      exact absurd hstates (by decide)
  | stuck n =>
    obtain ⟨-, -, hno⟩ := (h.stuck hp).resolve_left fun hc =>
      hconv ⟨hc.1, hc.2 i hi hnames.1⟩
    exact hno (Or.inl ⟨i, hi, hnames.1⟩)

end

/-- **The assertions of recovery are valid** on the images of calls that do not activate a fresh huge
region, turn a page run that the log names into a run or commit an old link. -/
theorem recovery_asserts_hold {P P' : Process} {img : Nvm} {fuel : ℕ}
    (himg : CrashImageIf P
      (fun s op => ¬ op.activatesFresh s ∧ ¬ op.convertsLogged s ∧ ¬ op.stale s) img) :
    (recoverHeap fuel (P'.start img)).2 ≠ .error .assertFailed := by
  obtain ⟨B, live, ⟨L, p₀, hinv, -, hblames⟩, hB⟩ := himg.crashOk
  have hno : ¬ B.fresh ∧ ¬ B.logged ∧ ¬ B.stale := by
    rcases hB with rfl | ⟨s, op, hok, rfl⟩
    · exact ⟨id, id, id⟩
    · exact hok
  have hclear : WordsClear L img := hblames.wordsClear hinv hno.2.2
  have hloop : Located logLoop (StoresIn (LogPlace L img))
      (fun _ w' => LogInv P' L p₀ img maxLogEntries w') (LogStops L img) (logStart P' img) :=
    logLoop_located hinv hclear logInv_start le_rfl
  rw [recoverHeap_result]
  intro hstop
  rcases bind_stop.mp hstop with hlog | ⟨_, w, -, hthread⟩
  · exact hblames.logStops hinv (fun hc => hno.2.1 hc.2) hno.1 (hloop.stop hlog) rfl
  · exact nvmRecoveryThread_no_assert hthread

/-- After one small reservation, wherever its activation is cut. -/
theorem recovery_asserts_hold_activate : ∃ s, Reachable sampleProcess s ∧
    (Op.activate 4190272 none none).Valid s ∧
    ∀ img ∈ cuts (Op.activate 4190272 none none).prog s.w, ∀ fuel,
      (recoverHeap fuel (sampleProcess.start img)).2 ≠ .error .assertFailed := by
  have hany : ((sampleHistory [.reserve 0 100]).any fun s =>
      decide ((Op.activate 4190272 none none).Valid s)) = true := by
    decide +kernel
  obtain ⟨s, hs, hvalid⟩ := Process.exists_reachable hany
  refine ⟨s, hs, of_decide_eq_true hvalid, fun img himg fuel =>
    recovery_asserts_hold (P := sampleProcess) ?_⟩
  refine .call hs (of_decide_eq_true hvalid) ⟨fun hfresh => ?_, id, fun hstale => ?_⟩ himg
  · exact absurd hfresh.1 (by decide)
  · exact absurd hstale.1 (by decide)

/-- A huge region that is activated for the first time is logged while its header is still in state
INITIALIZING. -/
theorem fresh_huge_fails_assert : ∃ s img, Reachable sampleProcess s ∧
    (Op.activate 83886144 none none).Valid s ∧ img ∈ cuts (Op.activate 83886144 none none).prog s.w ∧
    ∀ fuel, (recoverHeap fuel (sampleProcess.start img)).2 = .error .assertFailed := by
  have hany : ((sampleHistory [.reserve 0 3000000]).any fun s =>
      decide ((Op.activate 83886144 none none).Valid s) &&
        (cuts (Op.activate 83886144 none none).prog s.w).any fun img =>
          stopsWith (fun e => decide (e = .assertFailed)) (logLoop (logStart sampleProcess img)).2) =
      true := by
    decide +kernel
  obtain ⟨s, hs, hcut⟩ := Process.exists_reachable hany
  obtain ⟨hvalid, hcut⟩ := Bool.and_eq_true_iff.mp hcut
  obtain ⟨img, himg, hstop⟩ := List.any_eq_true.mp hcut
  refine ⟨s, img, hs, of_decide_eq_true hvalid, himg, fun fuel => ?_⟩
  rw [recoverHeap_result]
  obtain ⟨e, hloop, he⟩ := of_stopsWith hstop
  obtain rfl := of_decide_eq_true he
  exact bind_stop.mpr (Or.inl hloop)

/-! ## Where the log loop stores -/

/-- The bytes `[a, a + n)` lie in a header that the walks of the recovery thread meet on `img`. -/
def InMetadata (img : Nvm) (a n : ℕ) : Prop :=
  (∃ c ∈ chunkHeaders img, 4096 * (1024 * c) ≤ a ∧ a + n ≤ 4096 * (1024 * c) + headerSize) ∨
    ∃ c ∈ arenaChunks img, ∃ p ∈ pageHeaders img.mem c, 4096 * p ≤ a ∧ a + n ≤ 4096 * p + headerSize

instance (img : Nvm) (a n : ℕ) : Decidable (InMetadata img a n) := inferInstanceAs (Decidable (_ ∨ _))

/-- The header of a tile is metadata. -/
theorem Aligned.inMetadata {L : Layout} {img : Nvm} {p a n : ℕ} {t : Tile}
    (h : Aligned L img.mem img.nextChunk) (hp : L p = some t) (hlo : 4096 * p ≤ a)
    (hhi : a + n ≤ 4096 * p + 64) : InMetadata img a n := by
  by_cases hmod : p % 1024 = 0
  · obtain ⟨c, rfl⟩ : ∃ c, p = 1024 * c := ⟨p / 1024, by omega⟩
    exact Or.inl ⟨c, (h.chunkHeaders.2 c).mpr (by rw [hp]; rfl), hlo, hhi⟩
  · have harena := h.arena_of_page hp hmod
    refine Or.inr ⟨p / 1024, (h.arenaChunks.2 _).mpr harena, p, ?_, hlo, hhi⟩
    exact ((h.pageHeaders harena).2 p).mpr ⟨⟨by omega, by omega⟩, by rw [hp]; rfl⟩

/-- The link words a call is asked to store are those of its links. -/
theorem mem_linkWords {nvmStart : ℕ} {l1 l2 : Option Link} {x : ℕ × ℕ}
    (hx : x ∈ linkWords nvmStart l1 l2) : ∃ l, (l1 = some l ∨ l2 = some l) ∧ x.1 = l.ptr := by
  cases l1 with
  | none => exact absurd hx (by simp [linkWords])
  | some l =>
    cases l2 with
    | none =>
      obtain rfl := List.mem_singleton.mp hx
      exact ⟨l, Or.inl rfl, rfl⟩
    | some l' =>
      rcases List.mem_cons.mp hx with rfl | hx
      · exact ⟨l, Or.inl rfl, rfl⟩
      · obtain rfl := List.mem_singleton.mp hx
        exact ⟨l', Or.inr rfl, rfl⟩

/-- The log loop on `img` stores into headers and into the supplied link words only. -/
def ReplaysOnly (P : Process) (img : Nvm) (l1 l2 : Option Link) : Prop :=
  ∀ a n img', Event.store a n img' ∈ (logLoop (logStart P img)).1 →
    InMetadata img a n ∨ ∃ l, (l1 = some l ∨ l2 = some l) ∧ a = l.ptr ∧ n = 8

/-- **Replay writes only the caller's links**, if the header does not record an old one. -/
theorem replay_writes_only_links {P P' : Process} {s : Sys} {op : Op} {ptr : ℕ} {l1 l2 : Option Link}
    {img : Nvm} (hs : Reachable P s) (hop : op = .activate ptr l1 l2 ∨ op = .free ptr l1 l2)
    (hvalid : op.Valid s) (himg : img ∈ cuts op.prog s.w) (hstale : ¬ StaleLink s.w ptr l1 l2) :
    ReplaysOnly P' img l1 l2 := by
  intro a n img' hstore
  obtain ⟨L, p₀, hinv, -, hblames⟩ := crashOk_of_cut hs hvalid himg
  have hno : ¬ (op.blame s).stale ∧ ¬ (op.blame s).convert ∧ ¬ (op.blame s).grow := by
    rcases hop with rfl | rfl
    · exact ⟨hstale, id, id⟩
    · exact ⟨hstale, id, id⟩
  have hlinks : (op.blame s).links = linkWords s.w.nvmStart l1 l2 := by
    rcases hop with rfl | rfl
    · rfl
    · rfl
  have haligned : Aligned L img.mem img.nextChunk := by
    refine ⟨hinv.ok, hinv.hdr, fun p k hp => ?_⟩
    rcases hblames.stuck hp with hconv | ⟨hgrow, -⟩
    · exact hno.2.1 hconv.1
    · exact hno.2.2 hgrow
  have hclear : WordsClear L img := hblames.wordsClear hinv hno.1
  have hplace : LogPlace L img a n :=
    (logLoop_located hinv hclear (logInv_start (P := P')) le_rfl).1 _ hstore rfl
  rcases hplace with ⟨p, t, hp, hlo, hhi⟩ | ⟨p, t, hp, hpend, x, hx, rfl, rfl⟩
  · exact Or.inl (haligned.inMetadata hp hlo hhi)
  · obtain ⟨hwords, -⟩ := (hblames.words hp hpend).resolve_left hno.1
    rw [hwords, hlinks] at hx
    obtain ⟨l, hl, hptr⟩ := mem_linkWords hx
    exact Or.inr ⟨l, hl, hptr, rfl⟩

/-- The activation of a slot with a link, wherever it is cut. -/
theorem replay_writes_only_links_activate : ∃ s, Reachable sampleProcess s ∧
    (Op.activate 4190272 (some ⟨4190272, 0⟩) none).Valid s ∧
    ∀ img ∈ cuts (Op.activate 4190272 (some ⟨4190272, 0⟩) none).prog s.w,
      ReplaysOnly sampleProcess img (some ⟨4190272, 0⟩) none := by
  have hany : ((sampleHistory [.reserve 0 100]).any fun s =>
      decide ((Op.activate 4190272 (some ⟨4190272, 0⟩) none).Valid s ∧
        ¬ StaleLink s.w 4190272 (some ⟨4190272, 0⟩) none)) = true := by
    decide +kernel
  obtain ⟨s, hs, htest⟩ := Process.exists_reachable hany
  obtain ⟨hvalid, hstale⟩ := of_decide_eq_true htest
  exact ⟨s, hs, hvalid, fun img himg =>
    replay_writes_only_links hs (Or.inl rfl) hvalid himg hstale⟩

/-- The event is a store of eight bytes at `a`. -/
def storesWordAt (a : ℕ) : Event → Bool
  | .store a' n _ => a' = a ∧ n = 8
  | _ => false

theorem exists_of_storesWordAt {a : ℕ} {e : Event} (h : storesWordAt a e = true) :
    ∃ img', e = .store a 8 img' := by
  cases e with
  | store a' n img' =>
    obtain ⟨rfl, rfl⟩ := of_decide_eq_true h
    exact ⟨img', rfl⟩
  | storeMeta img' => exact absurd h (by simp [storesWordAt])
  | persist a' n => exact absurd h (by simp [storesWordAt])
  | persistMeta => exact absurd h (by simp [storesWordAt])

/-- User data in a region of four pages ends up in the header of a region of two pages: it reads there
as a second link, to address 41088. -/
def recycledPages : List Op := [.reserve 0 16000, .activate 4177984 none none, .write 4186136 128,
  .write 4186137 160, .free 4177984 none none, .reserve 0 5000]

/-- The activation of the region of two pages with one link is replayed with a second store. -/
theorem replay_writes_recycled_data : ∃ s img, Reachable sampleProcess s ∧
    (Op.activate 4186176 (some ⟨4186176, 0⟩) none).Valid s ∧
    img ∈ cuts (Op.activate 4186176 (some ⟨4186176, 0⟩) none).prog s.w ∧
    ¬ ReplaysOnly sampleProcess img (some ⟨4186176, 0⟩) none := by
  have hany : ((sampleHistory recycledPages).any fun s =>
      decide ((Op.activate 4186176 (some ⟨4186176, 0⟩) none).Valid s) &&
        (cuts (Op.activate 4186176 (some ⟨4186176, 0⟩) none).prog s.w).any fun img =>
          (logLoop (logStart sampleProcess img)).1.any (storesWordAt 41088) &&
            decide (¬ InMetadata img 41088 8)) = true := by
    decide +kernel
  obtain ⟨s, hs, htest⟩ := Process.exists_reachable hany
  obtain ⟨hvalid, hcut⟩ := Bool.and_eq_true_iff.mp htest
  obtain ⟨img, himg, hbad⟩ := List.any_eq_true.mp hcut
  obtain ⟨hstore, hoff⟩ := Bool.and_eq_true_iff.mp hbad
  obtain ⟨e, he, hword⟩ := List.any_eq_true.mp hstore
  obtain ⟨img', rfl⟩ := exists_of_storesWordAt hword
  refine ⟨s, img, hs, of_decide_eq_true hvalid, himg, fun honly => ?_⟩
  rcases honly _ _ _ he with hmeta | ⟨l, hl | hl, hptr, -⟩
  · exact of_decide_eq_true hoff hmeta
  · rw [← Option.some.inj hl] at hptr
    exact absurd hptr (by decide)
  · exact absurd hl (by simp)

end NvmMalloc
