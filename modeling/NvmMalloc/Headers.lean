import NvmMalloc.Layout

/-!
# What the headers hold

Reference: `src/types.h` (header layouts and state bytes).

`NvmInv` is the state of NVM between two calls, `ImgInv` the state a crash can leave.  Both read NVM
only through the header lines of the tiles and the activation log.
-/

namespace NvmMalloc

open Memory

/-! ## Header lines -/

section

variable {m m' : Mem} {h p : ℕ} {t : Tile}

/-- A field inside a header line depends only on the line. -/
theorem field_eqOn {f : NvmField} (heq : EqOn m m' h 64) (hf : f.off + f.width ≤ 64) :
    field m' h f = field m h f :=
  field_congr (heq.mono (by omega) (by omega))

theorem bitmapBit_eqOn {i : ℕ} (heq : EqOn m m' h 64) (hi : i < 64) :
    bitmapBit m' h i = bitmapBit m h i := by
  unfold bitmapBit
  rw [field_eqOn heq (by simp only [bitmapF]; omega)]

/-- The `on` array at offset `on` is clear. -/
def OnZero (m : Mem) (h on : ℕ) : Prop := ∀ k < 32, m (h + on + k) = 0

theorem OnZero.congr {on : ℕ} (hz : OnZero m h on) (heq : EqOn m m' h 64) (hon : on + 32 ≤ 64) :
    OnZero m' h on :=
  fun k hk => (heq _ (by omega) (by omega)).trans (hz k hk)

theorem OnZero.onPtr {on : ℕ} (hz : OnZero m h on) {k : ℕ} (hk : k < 2) :
    field m h (onPtrF on k) = 0 := by
  refine load_eq_zero fun x hx hx' => ?_
  simp only [onPtrF] at hx hx'
  have hxe : x = h + on + (x - (h + on)) := by omega
  rw [hxe]
  exact hz _ (by omega)

/-- The links recorded in the header at `h`, which recovery replays. -/
def recordedWords (m : Mem) (h on : ℕ) : List (ℕ × ℕ) :=
  if field m h (onPtrF on 0) = 0 then []
  else (field m h (onPtrF on 0), field m h (onValueF on 0)) ::
    if field m h (onPtrF on 1) = 0 then []
    else [(field m h (onPtrF on 1), field m h (onValueF on 1))]

/-- Where the header of a tile records links. -/
def Tile.on : Tile → ℕ
  | .run _ => runOn
  | _ => blockOn

/-- The header on page `p` has committed to its links: recovery completes the operation. -/
def Pending (m : Mem) (p : ℕ) : Prop :=
  getState (field m (4096 * p) stateF) = stateFreeing ∨
    getState (field m (4096 * p) stateF) = stateActivating

/-- The element sizes of runs. -/
def RunSize (n : ℕ) : Prop := ∃ c < 31, n = 64 * (c + 1)

/-- The constant part of a run header. -/
def RunHdr (m : Mem) (h : ℕ) : Prop :=
  RunSize (field m h nBytesF) ∧ field m h runArenaIdF < initialArenas

/-- The state byte of a huge header between two calls.  A region that was never free is in state
INITIALIZING until its activation. -/
def hugeState : Owner → ℕ → Prop
  | .user true, st => st = usageHuge + stateInitialized
  | .pool _, st => st = usageFree + stateInitialized
  | _, st => st = usageFree + stateInitialized ∨ st = usageHuge + stateInitializing

/-- The state byte of a block header between two calls. -/
def blockState : Owner → ℕ
  | .user true => usageBlock + stateInitialized
  | _ => usageFree + stateInitialized

/-- The header of a tile between two calls. -/
def Quiet (m : Mem) (p : ℕ) : Tile → Prop
  | .arena => field m (4096 * p) stateF = usageArena + stateInitialized
  | .huge n o =>
    field m (4096 * p) nChunksF = n ∧ hugeState o (field m (4096 * p) stateF) ∧
      (o = .user true → OnZero m (4096 * p) blockOn)
  | .block n o =>
    field m (4096 * p) nPagesF = n ∧ field m (4096 * p) blockArenaIdF < initialArenas ∧
      field m (4096 * p) stateF = blockState o ∧ (o = .user true → OnZero m (4096 * p) blockOn)
  | .run _ =>
    RunHdr m (4096 * p) ∧ field m (4096 * p) stateF = usageRun + stateInitialized ∧
      OnZero m (4096 * p) runOn
  | .stuck _ => False

/-- A header at which the recovery thread makes no progress or faults. -/
def StuckHdr (m : Mem) (p : ℕ) : Prop :=
  if p % 1024 = 0 then
    getUsage (field m (4096 * p) stateF) ≠ usageArena ∧ field m (4096 * p) nChunksF = 0
  else
    getUsage (field m (4096 * p) stateF) = usageRun ∧ field m (4096 * p) nBytesF = 0 ∨
      getUsage (field m (4096 * p) stateF) ≠ usageRun ∧ field m (4096 * p) nPagesF = 0

/-- The header of a tile at a crash.  A page run about to become a run passes through state 0, and one
of `nvm_initialize_empty` through INITIALIZING. -/
def HdrOk (m : Mem) (p : ℕ) : Tile → Prop
  | .arena => getUsage (field m (4096 * p) stateF) = usageArena
  | .huge n _ =>
    field m (4096 * p) nChunksF = n ∧ field m (4096 * p) stateF ∈
      [usageFree + stateInitialized, usageHuge + stateInitializing, usageHuge + stateInitialized,
        usageHuge + stateFreeing, usageHuge + stateActivating]
  | .block n _ =>
    field m (4096 * p) nPagesF = n ∧ field m (4096 * p) blockArenaIdF < initialArenas ∧
      field m (4096 * p) stateF ∈ [0, usageFree + stateInitializing, usageFree + stateInitialized,
        usageBlock + stateInitialized, usageBlock + stateFreeing, usageBlock + stateActivating]
  | .run _ =>
    RunHdr m (4096 * p) ∧
      field m (4096 * p) stateF ∈ [usageRun + stateInitialized, usageRun + statePrefree,
        usageRun + stateFreeing, usageRun + statePreactivate, usageRun + stateActivating] ∧
      (field m (4096 * p) stateF = usageRun + stateFreeing ∨
        field m (4096 * p) stateF = usageRun + stateActivating →
        field m (4096 * p) bitIdxF < slotsPerRun (field m (4096 * p) nBytesF))
  | .stuck _ => StuckHdr m p

/-- No operation is in progress on a header. -/
def Settled (m : Mem) (p : ℕ) : Prop :=
  getState (field m (4096 * p) stateF) ≠ statePrefree ∧
  getState (field m (4096 * p) stateF) ≠ stateFreeing ∧
  getState (field m (4096 * p) stateF) ≠ statePreactivate ∧
  getState (field m (4096 * p) stateF) ≠ stateActivating

theorem Settled.not_pending (hs : Settled m p) : ¬ Pending m p := by
  rintro (h | h)
  · exact hs.2.1 h
  · exact hs.2.2.2 h

theorem RunHdr.congr (hr : RunHdr m h) (heq : EqOn m m' h 64) : RunHdr m' h := by
  unfold RunHdr at hr ⊢
  rwa [field_eqOn heq (by decide), field_eqOn heq (by decide)]

theorem Quiet.congr (hq : Quiet m p t) (heq : EqOn m m' (4096 * p) 64) : Quiet m' p t := by
  have hst := field_eqOn (f := stateF) heq (by decide)
  cases t with
  | arena =>
    simp only [Quiet] at hq ⊢
    rwa [hst]
  | huge n o =>
    obtain ⟨hn, hstate, hon⟩ := hq
    refine ⟨?_, ?_, fun ho => (hon ho).congr heq (by decide)⟩
    · rwa [field_eqOn heq (by decide)]
    · rwa [hst]
  | block n o =>
    obtain ⟨hn, ha, hstate, hon⟩ := hq
    refine ⟨?_, ?_, ?_, fun ho => (hon ho).congr heq (by decide)⟩
    · rwa [field_eqOn heq (by decide)]
    · rwa [field_eqOn heq (by decide)]
    · rwa [hst]
  | run k =>
    obtain ⟨hr, hstate, hon⟩ := hq
    exact ⟨hr.congr heq, hst.trans hstate, hon.congr heq (by decide)⟩
  | stuck n => exact hq

theorem HdrOk.congr (hq : HdrOk m p t) (heq : EqOn m m' (4096 * p) 64) : HdrOk m' p t := by
  have hst := field_eqOn (f := stateF) heq (by decide)
  have hnc := field_eqOn (f := nChunksF) heq (by decide)
  have hnp := field_eqOn (f := nPagesF) heq (by decide)
  have hnb := field_eqOn (f := nBytesF) heq (by decide)
  cases t with
  | arena =>
    simp only [HdrOk] at hq ⊢
    rwa [hst]
  | huge n o =>
    obtain ⟨hn, hstate⟩ := hq
    exact ⟨hnc.trans hn, hst ▸ hstate⟩
  | block n o =>
    obtain ⟨hn, ha, hstate⟩ := hq
    refine ⟨hnp.trans hn, ?_, hst ▸ hstate⟩
    rwa [field_eqOn heq (by decide)]
  | run k =>
    obtain ⟨hr, hstate, hidx⟩ := hq
    refine ⟨hr.congr heq, hst ▸ hstate, ?_⟩
    rwa [hst, hnb, field_eqOn (f := bitIdxF) heq (by decide)]
  | stuck n =>
    simp only [HdrOk, StuckHdr] at hq ⊢
    rwa [hst, hnc, hnb, hnp]

theorem Quiet.hdrOk (hq : Quiet m p t) : HdrOk m p t := by
  cases t with
  | arena =>
    unfold Quiet at hq
    unfold HdrOk
    rw [hq]
    rfl
  | huge n o =>
    obtain ⟨hn, hst, -⟩ := hq
    refine ⟨hn, ?_⟩
    rcases o with a | - | _ | _ <;> simp only [hugeState] at hst
    · simp [hst]
    · rcases hst with hst | hst <;> simp [hst]
    · rcases hst with hst | hst <;> simp [hst]
    · simp [hst]
  | block n o =>
    obtain ⟨hn, ha, hst, -⟩ := hq
    refine ⟨hn, ha, ?_⟩
    rw [hst]
    rcases o with a | - | _ | _ <;> simp [blockState]
  | run k =>
    obtain ⟨hr, hst, -⟩ := hq
    refine ⟨hr, ?_, ?_⟩ <;> rw [hst] <;> simp
  | stuck n => exact absurd hq id

theorem Quiet.settled (hq : Quiet m p t) : Settled m p := by
  unfold Settled
  cases t with
  | arena => unfold Quiet at hq; rw [hq]; decide
  | huge n o =>
    have hst := hq.2.1
    rcases o with a | - | _ | _ <;> simp only [hugeState] at hst
    · rw [hst]; decide
    · rcases hst with hst | hst <;> rw [hst] <;> decide
    · rcases hst with hst | hst <;> rw [hst] <;> decide
    · rw [hst]; decide
  | block n o =>
    rw [hq.2.2.1]
    rcases o with a | - | _ | _ <;> simp only [blockState] <;> decide
  | run k => rw [hq.2.1]; decide
  | stuck n => exact absurd hq id

theorem Quiet.state_ne_initializing {n : ℕ} {o : Owner} (hq : Quiet m p (.block n o)) :
    field m (4096 * p) stateF ≠ usageFree + stateInitializing := by
  rw [hq.2.2.1]
  rcases o with a | - | _ | _ <;> simp only [blockState] <;> decide

theorem Settled.congr (hs : Settled m p) (heq : EqOn m m' (4096 * p) 64) : Settled m' p := by
  unfold Settled at hs ⊢
  rwa [field_eqOn heq (by decide)]

end

/-! ## The log -/

/-- The log word `x` names the tile at `p`: by the address behind its header or, for a run, by any
address behind the header on its page. -/
def Names (x p : ℕ) : Tile → Prop
  | .arena => False
  | .huge _ _ | .block _ _ => x = 4096 * p + 64
  | .run _ => 4096 * p + 64 ≤ x ∧ x < 4096 * p + 4096
  | .stuck _ => x = 4096 * p + 64 ∧ p % 1024 ≠ 0

/-- A log word lies on the first page of the tile it names. -/
theorem Names.page {x p : ℕ} {t : Tile} (h : Names x p t) : x / 4096 = p := by
  cases t <;> simp only [Names] at h <;> omega

/-- The log word `x` names some tile. -/
def Logged (L : Layout) (x : ℕ) : Prop := ∃ p t, L p = some t ∧ Names x p t

/-! ## The object table on NVM -/

/-- A slot lies on the header page of its chunk, behind the header. -/
theorem otSlotAddr_bounds {s : ℕ} : 4194304 * (s / 63) + 64 ≤ otSlotAddr s ∧
    otSlotAddr s + 64 ≤ 4194304 * (s / 63) + 4096 := by
  simp only [otSlotAddr, chunkSize, headerSize]
  omega

/-- Two slots do not overlap. -/
theorem otSlotAddr_disjoint {s s' : ℕ} (h : s ≠ s') :
    otSlotAddr s + 64 ≤ otSlotAddr s' ∨ otSlotAddr s' + 64 ≤ otSlotAddr s := by
  simp only [otSlotAddr, chunkSize, headerSize]
  omega

/-- Every slot in state INITIALIZING points to a tile. -/
def SlotsOk (L : Layout) (m : Mem) : Prop :=
  ∀ s < 1260, field m (otSlotAddr s) stateF = stateInitializing →
    Logged L (field m (otSlotAddr s) otPtrF)

/-- Recovery is told of `x`: by a log entry or by a slot in state INITIALIZING. -/
def Mentions (nvm : Nvm) (x : ℕ) : Prop :=
  (∃ i < maxLogEntries, nvm.log i = x) ∨
    ∃ s < 1260, field nvm.mem (otSlotAddr s) stateF = stateInitializing ∧
      field nvm.mem (otSlotAddr s) otPtrF = x

/-- The slots depend on the header pages of the initial chunks only. -/
theorem SlotsOk.congr {L L' : Layout} {m m' : Mem} (h : SlotsOk L m)
    (heq : ∀ c < initialArenas, EqOn m m' (4194304 * c) 4096) (hlogged : ∀ x, Logged L x → Logged L' x) :
    SlotsOk L' m' := by
  intro s hs hst
  have hbounds := otSlotAddr_bounds (s := s)
  have hslot : EqOn m m' (otSlotAddr s) 64 :=
    (heq (s / 63) (by simp only [initialArenas]; omega)).mono (by omega) (by omega)
  rw [field_eqOn hslot (by decide)] at hst ⊢
  exact hlogged _ (h s hs hst)

/-! ## NVM as a whole -/

/-- NVM between two calls of the process that created the heap. -/
structure NvmInv (L : Layout) (nvm : Nvm) : Prop where
  ok : L.Ok nvm.nextChunk
  le : nvm.nextChunk ≤ maxNvmChunks
  base : ∀ c < initialArenas, L (1024 * c) = some .arena
  quiet : ∀ {p t}, L p = some t → Quiet nvm.mem p t
  zero : ∀ x, 4194304 * nvm.nextChunk ≤ x → nvm.mem x = 0
  log : ∀ i < maxLogEntries, nvm.log i ≠ 0 → Logged L (nvm.log i)
  logHuge : ∀ {p n o i}, L p = some (.huge n o) → i < maxLogEntries → nvm.log i = 4096 * p + 64 →
    field nvm.mem (4096 * p) stateF ≠ usageHuge + stateInitializing
  version : nvm.version = 1
  runVersion : ∀ {p k}, L p = some (.run k) → field nvm.mem (4096 * p) versionF = 0
  slots : SlotsOk L nvm.mem

/-- NVM at a crash: the walk over the headers stays aligned with the layout, the log names tiles, and
at most the header at `p₀` is in transition.  While some tile is stuck none is, and a page run in state
INITIALIZING is only seen before the first call. -/
structure ImgInv (L : Layout) (p₀ : ℕ) (nvm : Nvm) : Prop where
  ok : L.Ok nvm.nextChunk
  le : nvm.nextChunk ≤ maxNvmChunks
  base : (∀ p n, L p ≠ some (.stuck n)) → ∀ c < initialArenas, c < nvm.nextChunk →
    L (1024 * c) = some .arena
  hdr : ∀ {p t}, L p = some t → HdrOk nvm.mem p t
  settled : ∀ {p t}, L p = some t → p ≠ p₀ → Settled nvm.mem p
  log : ∀ i < maxLogEntries, nvm.log i ≠ 0 → Logged L (nvm.log i)
  stuckLog : ∀ {p n i}, L p = some (.stuck n) → i < maxLogEntries → Names (nvm.log i) p (.stuck n) →
    nvm.log i ≠ 0 → field nvm.mem (4096 * p) stateF = 0 ∨
      field nvm.mem (4096 * p) stateF = usageRun + stateInitialized
  runVersion : ∀ {p k}, L p = some (.run k) →
    field nvm.mem (4096 * p) versionF = 0 ∧ nvm.version = 1
  stuckRun : ∀ {p n}, L p = some (.stuck n) → getUsage (field nvm.mem (4096 * p) stateF) = usageRun →
    field nvm.mem (4096 * p) versionF < nvm.version
  calm : ∀ {p n}, L p = some (.stuck n) → ∀ {q t}, L q = some t → Settled nvm.mem q
  initial : ∀ {p n o}, L p = some (.block n o) →
    field nvm.mem (4096 * p) stateF = usageFree + stateInitializing → ∀ i < maxLogEntries, nvm.log i = 0
  slots : SlotsOk L nvm.mem

/-- A tile lies in the chunks of the heap. -/
theorem NvmInv.lt_nextChunk {L : Layout} {nvm : Nvm} (h : NvmInv L nvm) {c : ℕ} {t : Tile}
    (hc : L (1024 * c) = some t) : c < nvm.nextChunk := by
  have hend := h.ok.add_len_le hc
  have hpos := h.ok.len_pos hc
  omega

/-- Between two calls NVM is also what a crash may leave. -/
theorem NvmInv.imgInv {L : Layout} {nvm : Nvm} (h : NvmInv L nvm) (p₀ : ℕ) : ImgInv L p₀ nvm where
  ok := h.ok
  le := h.le
  base _ c hc _ := h.base c hc
  hdr hp := (h.quiet hp).hdrOk
  settled hp _ := (h.quiet hp).settled
  log := h.log
  stuckLog hp := absurd (h.quiet hp) id
  runVersion hp := ⟨h.runVersion hp, h.version⟩
  stuckRun hp := absurd (h.quiet hp) id
  calm hp := absurd (h.quiet hp) id
  initial hp hst := absurd hst (h.quiet hp).state_ne_initializing
  slots := h.slots

/-- NVM after a change: every tile is an old one with an unchanged header, or has a quiet header. -/
theorem NvmInv.step {L L' : Layout} {nvm nvm' : Nvm} (h : NvmInv L nvm) (hok : L'.Ok nvm'.nextChunk)
    (hle : nvm'.nextChunk ≤ maxNvmChunks) (hbase : ∀ c < initialArenas, L' (1024 * c) = some .arena)
    (htile : ∀ {q u}, L' q = some u → (L q = some u ∧ EqOn nvm.mem nvm'.mem (4096 * q) 64) ∨
      (Quiet nvm'.mem q u ∧ (∀ k, u = .run k → field nvm'.mem (4096 * q) versionF = 0) ∧
        ∀ n o i, u = .huge n o → i < maxLogEntries → nvm.log i = 4096 * q + 64 →
          field nvm'.mem (4096 * q) stateF ≠ usageHuge + stateInitializing))
    (hzero : ∀ x, 4194304 * nvm'.nextChunk ≤ x → nvm'.mem x = 0) (hlog : nvm'.log = nvm.log)
    (hlogged : ∀ x, Logged L x → Logged L' x) (hversion : nvm'.version = nvm.version)
    (htable : ∀ c < initialArenas, EqOn nvm.mem nvm'.mem (4194304 * c) 4096) : NvmInv L' nvm' where
  ok := hok
  le := hle
  base := hbase
  quiet hq := by
    rcases htile hq with ⟨hold, heq⟩ | ⟨hquiet, -⟩
    · exact (h.quiet hold).congr heq
    · exact hquiet
  zero := hzero
  log i hi hne := by
    rw [hlog] at hne ⊢
    exact hlogged _ (h.log i hi hne)
  logHuge {q n o i} hq hi hnamed := by
    rw [hlog] at hnamed
    rcases htile hq with ⟨hold, heq⟩ | ⟨-, -, hhuge⟩
    · rw [field_eqOn heq (by decide)]
      exact h.logHuge hold hi hnamed
    · exact hhuge n o i rfl hi hnamed
  version := hversion.trans h.version
  runVersion hq := by
    rcases htile hq with ⟨hold, heq⟩ | ⟨-, hver, -⟩
    · rw [field_eqOn heq (by decide)]
      exact h.runVersion hold
    · exact hver _ rfl
  slots := h.slots.congr htable hlogged

/-- The same for a crash image: the headers that change need only be well-formed. -/
theorem NvmInv.imgStep {L L' : Layout} {nvm nvm' : Nvm} {p₀ : ℕ} (h : NvmInv L nvm)
    (hok : L'.Ok nvm'.nextChunk) (hle : nvm'.nextChunk ≤ maxNvmChunks)
    (hbase : ∀ c < initialArenas, L' (1024 * c) = some .arena)
    (htile : ∀ {q u}, L' q = some u → (L q = some u ∧ EqOn nvm.mem nvm'.mem (4096 * q) 64) ∨
      (HdrOk nvm'.mem q u ∧ (q ≠ p₀ → Settled nvm'.mem q) ∧
        (∀ k, u = .run k → field nvm'.mem (4096 * q) versionF = 0) ∧
        (∀ n, u = .stuck n → (field nvm'.mem (4096 * q) stateF = 0 ∨
          field nvm'.mem (4096 * q) stateF = usageRun + stateInitialized ∨
          1024 * nvm.nextChunk ≤ q) ∧ (getUsage (field nvm'.mem (4096 * q) stateF) = usageRun →
          field nvm'.mem (4096 * q) versionF = 0)) ∧
        (∀ n o, u = .block n o → field nvm'.mem (4096 * q) stateF ≠ usageFree + stateInitializing)))
    (hlog : nvm'.log = nvm.log) (hlogged : ∀ x, Logged L x → Logged L' x)
    (hversion : nvm'.version = nvm.version)
    (htable : ∀ c < initialArenas, EqOn nvm.mem nvm'.mem (4194304 * c) 4096)
    (hcalm : ∀ {u}, L' p₀ = some u → Settled nvm'.mem p₀) : ImgInv L' p₀ nvm' where
  ok := hok
  le := hle
  base _ c hc _ := hbase c hc
  hdr hq := by
    rcases htile hq with ⟨hold, heq⟩ | ⟨hhdr, -⟩
    · exact (h.quiet hold).hdrOk.congr heq
    · exact hhdr
  settled hq hne := by
    rcases htile hq with ⟨hold, heq⟩ | ⟨-, hset, -⟩
    · exact (h.quiet hold).settled.congr heq
    · exact hset hne
  log i hi hne := by
    rw [hlog] at hne ⊢
    exact hlogged _ (h.log i hi hne)
  stuckLog {p n i} hq hi hnames hne := by
    rcases htile hq with ⟨hold, -⟩ | ⟨-, -, -, hstuck, -⟩
    · exact absurd (h.quiet hold) id
    · rcases (hstuck n rfl).1 with hst | hst | hge
      · exact Or.inl hst
      · exact Or.inr hst
      · -- the log names a tile of the old layout, below the new chunks
        rw [hlog] at hne hnames
        obtain ⟨q, u, hq', hnames'⟩ := h.log i hi hne
        have hpos := h.ok.len_pos hq'
        have hend := h.ok.add_len_le hq'
        have hlt : nvm.log i < 4096 * (q + 1) := by
          cases u <;> simp only [Names] at hnames' <;> omega
        have hlo := hnames.1
        omega
  runVersion hq := by
    refine ⟨?_, hversion.trans h.version⟩
    rcases htile hq with ⟨hold, heq⟩ | ⟨-, -, hver, -⟩
    · rw [field_eqOn heq (by decide), h.runVersion hold]
    · exact hver _ rfl
  stuckRun hq husage := by
    rw [hversion, h.version]
    rcases htile hq with ⟨hold, -⟩ | ⟨-, -, -, hstuck, -⟩
    · exact absurd (h.quiet hold) id
    · rw [(hstuck _ rfl).2 husage]
      exact Nat.one_pos
  calm {p n} _ {q t} hq := by
    by_cases hqp : q = p₀
    · subst hqp
      exact hcalm hq
    · rcases htile hq with ⟨hold, heq⟩ | ⟨-, hset, -⟩
      · exact (h.quiet hold).settled.congr heq
      · exact hset hqp
  initial hq hst := by
    rcases htile hq with ⟨hold, heq⟩ | ⟨-, -, -, -, hblock⟩
    · rw [field_eqOn heq (by decide)] at hst
      exact absurd hst (h.quiet hold).state_ne_initializing
    · exact absurd hst (hblock _ _ rfl)
  slots := h.slots.congr htable hlogged

/-- A change of the bytes outside the headers keeps NVM in order. -/
theorem NvmInv.body {L : Layout} {nvm : Nvm} {m : Mem} (h : NvmInv L nvm)
    (heq : ∀ {p t}, L p = some t → EqOn nvm.mem m (4096 * p) 64)
    (hzero : ∀ x, 4194304 * nvm.nextChunk ≤ x → m x = 0) (hslots : SlotsOk L m) :
    NvmInv L { nvm with mem := m } where
  ok := h.ok
  le := h.le
  base := h.base
  quiet hp := (h.quiet hp).congr (heq hp)
  zero := hzero
  log := h.log
  logHuge hp hi hnamed := by
    rw [field_eqOn (heq hp) (by decide)]
    exact h.logHuge hp hi hnamed
  version := h.version
  runVersion hp := by
    rw [field_eqOn (heq hp) (by decide)]
    exact h.runVersion hp
  slots := hslots

end NvmMalloc
