import NvmMalloc.RecoveredHeap

/-!
# One region across a crash

Reference: `src/nvm_malloc.c` (`nvm_activate`, `nvm_free`, `nvm_initialize_recovered`), `src/arena.c`
(`arena_free`).

`AllocatedAfter img r` reads off a crash image whether recovery will leave the region `r` allocated: the
log loop completes an activation or a free that had reached its commit state, if a log entry names the
header.  `CallOutcome` says what an interrupted activation or free left: nothing, or a header past its
commit point and the link words written so far.
-/

namespace NvmMalloc

open Memory CrashM

/-! ## What recovery makes of a header -/

/-- The state byte that recovery leaves on page `p`. -/
def recoveredState (img : Nvm) (p : ℕ) : ℕ :=
  if NamedBefore img maxLogEntries p then redoneState (field img.mem (4096 * p) stateF)
  else field img.mem (4096 * p) stateF

/-- Bit `j` of the bitmap that recovery leaves in the run on page `p`. -/
def recoveredBit (img : Nvm) (p j : ℕ) : Bool :=
  if NamedBefore img maxLogEntries p then redoneBit img.mem (4096 * p) j
  else bitmapBit img.mem (4096 * p) j

/-- Recovery leaves the region allocated. -/
def AllocatedAfter (img : Nvm) (r : Region) : Prop :=
  if r.nBytes ≤ sclassSmallMax then
    recoveredBit img (r.ptr / blockSize) r.slot = true
  else if r.nBytes ≤ sclassLargeMax then
    recoveredState img (r.ptr / blockSize) = usageBlock + stateInitialized
  else
    recoveredState img (r.ptr / blockSize) = usageHuge + stateInitialized

instance (img : Nvm) (r : Region) : Decidable (AllocatedAfter img r) := by
  unfold AllocatedAfter
  infer_instance

/-- The tile on which a region lies. -/
inductive OnTile (L : Layout) (m : Mem) (r : Region) : Prop where
  | small (hsize : r.nBytes ≤ sclassSmallMax) {p k i : ℕ} (htile : L p = some (.run k))
      (helem : field m (4096 * p) nBytesF = roundUp r.nBytes 64)
      (hi : i < slotsPerRun (roundUp r.nBytes 64))
      (hptr : r.ptr = 4096 * p + 64 + roundUp r.nBytes 64 * i)
  | large (hlo : sclassSmallMax < r.nBytes) (hhi : r.nBytes ≤ sclassLargeMax) {p n : ℕ} {o : Owner}
      (htile : L p = some (.block n o)) (hptr : r.ptr = 4096 * p + 64)
  | huge (hlo : sclassLargeMax < r.nBytes) {p n : ℕ} {o : Owner} (htile : L p = some (.huge n o))
      (hptr : r.ptr = 4096 * p + 64)

section

variable {P : Process} {L : Layout} {p₀ p : ℕ} {img : Nvm} {w₀ w : World} {r : Region} {m m' : Mem}
  {live : List Region} {H : ℕ → ArenaRun}

/-- An outstanding region lies on its tile. -/
theorem HeapInv.onTile (h : HeapInv L w live) (hr : r ∈ live) : OnTile L w.nvm.mem r := by
  cases h.live.placed r hr with
  | @small hsize p k i htile helem hi hptr hbit hnvm =>
    have hbytes : field w.nvm.mem (4096 * p) nBytesF = (w.vheaders k).elemSize :=
      (h.runs.run htile).2.elemSize.symm
    rw [helem] at hbytes hi hptr
    exact .small hsize htile hbytes hi hptr
  | large hlo hhi htile hptr => exact .large hlo hhi htile hptr
  | huge hlo htile hptr => exact .huge hlo htile hptr

/-- The page and the slot of a small region. -/
theorem smallRegion_slot {i : ℕ} (hsize : 1 ≤ r.nBytes) (hi : i < slotsPerRun (roundUp r.nBytes 64))
    (hptr : r.ptr = 4096 * p + 64 + roundUp r.nBytes 64 * i) :
    r.ptr / blockSize = p ∧ r.slot = i ∧ i < 64 := by
  have he : 64 ≤ roundUp r.nBytes 64 := by
    rw [roundUp_64]
    omega
  obtain ⟨hpage, hslot⟩ := slot_eq (p := p) hi he
  rw [← hptr] at hpage hslot
  have hle := slotsPerRun_roundUp_le r.nBytes
  simp only [blockSize] at hpage
  exact ⟨by simp only [blockSize]; omega, hslot, by omega⟩

/-- The tile of a region does not depend on its activity. -/
theorem OnTile.of_active {b : Bool} (h : OnTile L m { r with active := b }) : OnTile L m r := by
  cases h with
  | small hs htile helem hi hptr => exact .small hs htile helem hi hptr
  | large hlo hhi htile hptr => exact .large hlo hhi htile hptr
  | huge hlo htile hptr => exact .huge hlo htile hptr

/-- The header of a region lies on the page of its pointer. -/
theorem OnTile.page (h : OnTile L m r) (hsize : 1 ≤ r.nBytes) :
    r.ptr ≠ 0 ∧ ∃ t, L (r.ptr / 4096) = some t := by
  cases h with
  | small hs htile helem hi hptr =>
    have hpage := (smallRegion_slot hsize hi hptr).1
    exact ⟨by omega, _, (congrArg L hpage).trans htile⟩
  | @large hlo hhi p n o htile hptr =>
    exact ⟨by omega, _, (congrArg L (by omega)).trans htile⟩
  | @huge hlo p n o htile hptr =>
    exact ⟨by omega, _, (congrArg L (by omega)).trans htile⟩

/-- The class of a region is that of its tile. -/
theorem OnTile.class_of_tile (h : OnTile L m r) (hsize : 1 ≤ r.nBytes) {t : Tile} {n : ℕ} {o : Owner}
    (hp : L (r.ptr / 4096) = some t) :
    (t = .block n o → sclassSmallMax < r.nBytes ∧ r.nBytes ≤ sclassLargeMax) ∧
      (t = .huge n o → sclassLargeMax < r.nBytes) := by
  cases h with
  | @small hs p k i htile helem hi hptr =>
    have hpage : r.ptr / 4096 = p := (smallRegion_slot hsize hi hptr).1
    rw [hpage, htile] at hp
    cases hp
    exact ⟨fun ht => absurd ht (by simp), fun ht => absurd ht (by simp)⟩
  | @large hlo hhi p n o htile hptr =>
    rw [show r.ptr / 4096 = p by omega, htile] at hp
    cases hp
    exact ⟨fun _ => ⟨hlo, hhi⟩, fun ht => absurd ht (by simp)⟩
  | @huge hlo p n o htile hptr =>
    rw [show r.ptr / 4096 = p by omega, htile] at hp
    cases hp
    exact ⟨fun ht => absurd ht (by simp), fun _ => hlo⟩

theorem OnTile.congr (h : OnTile L m r) (heq : ∀ {p k}, L p = some (.run k) → r.ptr / 4096 = p →
      field m' (4096 * p) nBytesF = field m (4096 * p) nBytesF) (hsize : 1 ≤ r.nBytes) :
      OnTile L m' r := by
  cases h with
  | small hs htile helem hi hptr =>
    have hpage := (smallRegion_slot hsize hi hptr).1
    exact .small hs htile ((heq htile hpage).trans helem) hi hptr
  | large hlo hhi htile hptr => exact .large hlo hhi htile hptr
  | huge hlo htile hptr => exact .huge hlo htile hptr

/-- The marks of a region are in its header. -/
theorem MarkedAllocated.congr {m₀ : Mem} (ht : OnTile L m₀ r) (hsize : 1 ≤ r.nBytes)
    (heq : EqOn m m' (4096 * (r.ptr / 4096)) 64) : MarkedAllocated m' r ↔ MarkedAllocated m r := by
  have hle : sclassSmallMax ≤ sclassLargeMax := by decide
  have hpage : r.ptr / blockSize * blockSize = 4096 * (r.ptr / 4096) := by
    simp only [blockSize]
    omega
  unfold MarkedAllocated
  cases ht with
  | small hs htile helem hi hptr =>
    obtain ⟨-, hslot, hlt⟩ := smallRegion_slot hsize hi hptr
    rw [if_pos hs, if_pos hs, hpage, hslot, field_eqOn heq (by decide), field_eqOn heq (by decide),
      bitmapBit_eqOn heq hlt]
  | large hlo hhi htile hptr =>
    rw [if_neg (by omega), if_pos hhi, if_neg (by omega), if_pos hhi,
      show r.ptr - headerSize = 4096 * (r.ptr / 4096) by simp only [headerSize]; omega,
      field_eqOn heq (by decide)]
  | huge hlo htile hptr =>
    rw [if_neg (by omega), if_neg (by omega), if_neg (by omega), if_neg (by omega),
      show r.ptr - headerSize = 4096 * (r.ptr / 4096) by simp only [headerSize]; omega,
      field_eqOn heq (by decide)]

/-- What recovery leaves of the header of a run. -/
theorem Recovered.run_facts (h : Recovered P L p₀ img w₀ w) {k i : ℕ} (hp : L p = some (.run k))
    (hi : i < 64) : field w.nvm.mem (4096 * p) nBytesF = field img.mem (4096 * p) nBytesF ∧
      bitmapBit w.nvm.mem (4096 * p) i = recoveredBit img p i := by
  rw [h.scan.field_eq (by decide), h.scan.bitmapBit_eq hi, recoveredBit]
  split
  · rename_i hnamed
    have hdone : RunRedone img.version img.mem w₀.nvm.mem (4096 * p) := h.log.done hp hnamed
    refine ⟨field_congr fun x hx hx' => ?_, hdone.bits i hi⟩
    simp only [nBytesF] at hx hx'
    exact hdone.keep x (by omega) (by omega) (by omega)
  · rename_i hnamed
    have heq := h.log.same hp hnamed
    exact ⟨field_eqOn heq (by decide), bitmapBit_eqOn heq hi⟩

/-- Outside the headers only the log loop stores. -/
theorem Recovered.body (h : Recovered P L p₀ img w₀ w) {x : ℕ} (hoff : OffHeaders L x) :
    w.nvm.mem x = storeWords img.mem (redoneBefore L p₀ P.nvmStart img maxLogEntries).words x := by
  have hscan : ∀ q ∈ newRuns L w₀ (1024 * img.nextChunk), ¬ ScanByte q x := by
    intro q hq hbyte
    obtain ⟨u, hu⟩ := Option.isSome_iff_exists.mp (mem_newRuns.mp hq).1.2.2
    have := hoff q u hu
    unfold ScanByte at hbyte
    omega
  rw [h.scan.mem x hscan, h.log.body x hoff]

/-- **What recovery leaves of a region** can be read off the image. -/
theorem Recovered.marked_iff (h : Recovered P L p₀ img w₀ w) (ht : OnTile L img.mem r)
    (hsize : 1 ≤ r.nBytes) : MarkedAllocated w.nvm.mem r ↔ AllocatedAfter img r := by
  have hle : sclassSmallMax ≤ sclassLargeMax := by decide
  unfold MarkedAllocated AllocatedAfter
  cases ht with
  | @small hs p k i htile helem hi hptr =>
    obtain ⟨hpage, hslot, hlt⟩ := smallRegion_slot hsize hi hptr
    have hhdr := h.aligned.hdr htile
    have husage : getUsage (field w.nvm.mem (4096 * p) stateF) = usageRun :=
      (hhdr.usage (by simp)).2.mpr ⟨k, rfl⟩
    obtain ⟨hbytes, hbit⟩ := h.run_facts htile hlt
    rw [if_pos hs, if_pos hs, hpage, hslot,
      show p * blockSize = 4096 * p by simp only [blockSize]; omega,
      hbit]
    exact ⟨fun hm => hm.2.2, fun hb => ⟨husage, hbytes.trans helem, hb⟩⟩
  | @large hlo hhi p n o htile hptr =>
    rw [if_neg (by omega), if_pos hhi, if_neg (by omega), if_pos hhi,
      show r.ptr - headerSize = 4096 * p by simp only [headerSize]; omega,
      show r.ptr / blockSize = p by simp only [blockSize]; omega, h.state_eq htile (by simp)]
    rfl
  | @huge hlo p n o htile hptr =>
    rw [if_neg (by omega), if_neg (by omega), if_neg (by omega), if_neg (by omega),
      show r.ptr - headerSize = 4096 * p by simp only [headerSize]; omega,
      show r.ptr / blockSize = p by simp only [blockSize]; omega, h.state_eq htile (by simp)]
    rfl

end

/-! ## What an interrupted call has left -/

/-- What a crash inside an activation (`b = true`) or a free (`b = false`) of `r` left: nothing that
recovery sees, or a header past its commit point and a prefix of the link words, all of them if the
header is no longer in transition. -/
structure CallOutcome (L : Layout) (w : World) (r : Region) (l1 l2 : Option Link) (b : Bool)
    (img : Nvm) : Prop where
  tile : OnTile L img.mem r
  outcome : ((AllocatedAfter img r ↔ b = false) ∧ ¬ Pending img.mem (r.ptr / 4096) ∧
      ∀ x, OffHeaders L x → img.mem x = w.nvm.mem x) ∨
    ((AllocatedAfter img r ↔ b = true) ∧ ∃ ws, ws <+: linkWords w.nvmStart l1 l2 ∧
      (∀ x, OffHeaders L x → img.mem x = storeWords w.nvm.mem ws x) ∧
      (l1.isSome ∧ Pending img.mem (r.ptr / 4096) ∨
        ws = linkWords w.nvmStart l1 l2 ∧ ¬ Pending img.mem (r.ptr / 4096)))

section

variable {L : Layout} {p committed final : ℕ} {t : Tile} {w : World} {r : Region} {m m₀ : Mem}
  {live : List Region} {l1 l2 : Option Link} {log : ℕ → ℕ} {img : Nvm}

theorem recoveredState_of_not_pending (hpend : ¬ Pending img.mem p) :
    recoveredState img p = field img.mem (4096 * p) stateF := by
  unfold recoveredState
  split
  · unfold redoneState
    rw [if_neg fun hf => hpend (Or.inl hf), if_neg fun hf => hpend (Or.inr hf)]
  · rfl

theorem recoveredBit_of_not_pending {j : ℕ} (hpend : ¬ Pending img.mem p) :
    recoveredBit img p j = bitmapBit img.mem (4096 * p) j := by
  unfold recoveredBit redoneBit
  have hfreeing : field img.mem (4096 * p) stateF ≠ usageRun + stateFreeing := by
    intro hst
    refine hpend (Or.inl ?_)
    rw [hst]
    decide
  have hactivating : field img.mem (4096 * p) stateF ≠ usageRun + stateActivating := by
    intro hst
    refine hpend (Or.inr ?_)
    rw [hst]
    decide
  split
  · rw [if_neg fun hf => hfreeing hf.1, if_neg fun hf => hactivating hf.1]
  · rfl

/-- The state byte of a large or huge header and the link words, for a crash inside its protocol. -/
theorem HdrProgress.outcome {nvm : Nvm} (hp : L p = some t)
    (hprog : HdrProgress w.nvmStart w.nvm.mem (4096 * p) committed final l1 l2 nvm.mem)
    (hold : ¬ Pending w.nvm.mem p) (hredone : redoneState committed = final)
    (hcommitted : getState committed = stateFreeing ∨ getState committed = stateActivating)
    (hfinal : getState final = stateInitialized)
    (hnamed : Pending nvm.mem p → NamedBefore nvm maxLogEntries p) :
    (recoveredState nvm p = field w.nvm.mem (4096 * p) stateF ∧ ¬ Pending nvm.mem p ∧
        ∀ x, OffHeaders L x → nvm.mem x = w.nvm.mem x) ∨
      (recoveredState nvm p = final ∧ ∃ ws, ws <+: linkWords w.nvmStart l1 l2 ∧
        (∀ x, OffHeaders L x → nvm.mem x = storeWords w.nvm.mem ws x) ∧
        (l1.isSome ∧ Pending nvm.mem p ∨ ws = linkWords w.nvmStart l1 l2 ∧ ¬ Pending nvm.mem p)) := by
  have hstate {st : ℕ} (hst : field nvm.mem (4096 * p) stateF = st) :
      Pending nvm.mem p ↔ getState st = stateFreeing ∨ getState st = stateActivating := by
    unfold Pending
    rw [hst]
  cases hprog with
  | before hstage =>
    have hpend : ¬ Pending nvm.mem p := by
      rw [hstate hstage.state]
      exact hold
    refine Or.inl ⟨?_, hpend, fun x hx => hstage.off x (hx p t hp)⟩
    rw [recoveredState_of_not_pending hpend, hstage.state]
  | @committed ws hlink hws hstage hrec =>
    have hpend := (hstate hstage.state).mpr hcommitted
    refine Or.inr ⟨?_, ws, hws, fun x hx => hstage.off x (hx p t hp), Or.inl ⟨hlink, hpend⟩⟩
    rw [recoveredState, if_pos (hnamed hpend), hstage.state, hredone]
  | final hstage =>
    have hpend : ¬ Pending nvm.mem p := by
      rw [hstate hstage.state, hfinal]
      decide
    refine Or.inr ⟨?_, _, List.prefix_refl _, fun x hx => hstage.off x (hx p t hp), Or.inr ⟨rfl, hpend⟩⟩
    rw [recoveredState_of_not_pending hpend, hstage.state]

/-- Bit `i` of a run header and the link words, for a crash inside its protocol. -/
theorem RunProgress.outcome {nvm : Nvm} {k i pre : ℕ} {b : Bool} (hp : L p = some (.run k)) (hi : i < 64)
    (hm₀ : m₀ = store w.nvm.mem (4096 * p + stateF.off) stateF.width pre)
    (hprog : RunProgress w.nvmStart m₀ (4096 * p) committed i b l1 l2 nvm.mem)
    (hpre : pre = usageRun + statePreactivate ∨ pre = usageRun + statePrefree)
    (hcommitted : b = true ∧ committed = usageRun + stateActivating ∨
      b = false ∧ committed = usageRun + stateFreeing)
    (hnamed : Pending nvm.mem p → NamedBefore nvm maxLogEntries p) :
    (recoveredBit nvm p i = bitmapBit w.nvm.mem (4096 * p) i ∧ ¬ Pending nvm.mem p ∧
        ∀ x, OffHeaders L x → nvm.mem x = w.nvm.mem x) ∨
      (recoveredBit nvm p i = b ∧ ∃ ws, ws <+: linkWords w.nvmStart l1 l2 ∧
        (∀ x, OffHeaders L x → nvm.mem x = storeWords w.nvm.mem ws x) ∧
        (l1.isSome ∧ Pending nvm.mem p ∨ ws = linkWords w.nvmStart l1 l2 ∧ ¬ Pending nvm.mem p)) := by
  have hpre256 : pre < 256 := by rcases hpre with rfl | rfl <;> decide
  obtain ⟨heq₀, hst₀, hbits₀⟩ := acquired_facts hm₀ hpre256
  have hoff {ws : List (ℕ × ℕ)} (hstage : EqOff (storeWords m₀ ws) nvm.mem (4096 * p) 64) (x : ℕ)
      (hx : OffHeaders L x) : nvm.mem x = storeWords w.nvm.mem ws x :=
    (((heq₀.mono le_rfl (by omega)).storeWords ws).trans hstage) x (hx p _ hp)
  have hstate {st : ℕ} (hst : field nvm.mem (4096 * p) stateF = st) :
      Pending nvm.mem p ↔ getState st = stateFreeing ∨ getState st = stateActivating := by
    unfold Pending
    rw [hst]
  have hquiet {st : ℕ} (hst : field nvm.mem (4096 * p) stateF = st)
      (hkind : st = pre ∨ st = usageRun + stateInitialized) : ¬ Pending nvm.mem p := by
    rw [hstate hst]
    rcases hkind with rfl | rfl
    · rcases hpre with rfl | rfl <;> decide
    · decide
  cases hprog with
  | before hstage =>
    have hpend := hquiet hstage.state (Or.inl hst₀)
    refine Or.inl ⟨?_, hpend, fun x hx => hoff hstage.off x hx⟩
    rw [recoveredBit_of_not_pending hpend, hstage.bits i hi, hbits₀ i hi]
  | @committed ws bits hlink hws hstage hbits hidx hrec =>
    have hpend : Pending nvm.mem p := by
      rw [hstate hstage.state]
      rcases hcommitted with ⟨-, rfl⟩ | ⟨-, rfl⟩ <;> decide
    refine Or.inr ⟨?_, ws, hws, fun x hx => hoff hstage.off x hx, Or.inl ⟨hlink, hpend⟩⟩
    rw [recoveredBit, if_pos (hnamed hpend), redoneBit, hstage.state, hidx]
    rcases hcommitted with ⟨rfl, rfl⟩ | ⟨rfl, rfl⟩
    · rw [if_neg fun hf => absurd hf.1 (by decide), if_pos ⟨rfl, rfl⟩]
    · rw [if_pos ⟨rfl, rfl⟩]
  | marked hlink hstage =>
    have hpend := hquiet hstage.state (Or.inl hst₀)
    refine Or.inr ⟨?_, [], List.nil_prefix, fun x hx => hoff hstage.off x hx, Or.inr ⟨?_, hpend⟩⟩
    · rw [recoveredBit_of_not_pending hpend, hstage.bits i hi, Function.update_self]
    · rw [hlink]
      rfl
  | final hstage =>
    have hpend := hquiet hstage.state (Or.inr rfl)
    refine Or.inr ⟨?_, _, List.prefix_refl _, fun x hx => hoff hstage.off x hx, Or.inr ⟨rfl, hpend⟩⟩
    rw [recoveredBit_of_not_pending hpend, hstage.bits i hi, Function.update_self]

/-- The region of a header on page `p` is allocated after recovery exactly if the state byte says so. -/
theorem allocatedAfter_large (hlo : sclassSmallMax < r.nBytes) (hhi : r.nBytes ≤ sclassLargeMax)
    (hptr : r.ptr = 4096 * p + 64) :
    AllocatedAfter img r ↔ recoveredState img p = usageBlock + stateInitialized := by
  unfold AllocatedAfter
  rw [if_neg (by omega), if_pos hhi, show r.ptr / blockSize = p by simp only [blockSize]; omega]

theorem allocatedAfter_huge (hlo : sclassLargeMax < r.nBytes) (hptr : r.ptr = 4096 * p + 64) :
    AllocatedAfter img r ↔ recoveredState img p = usageHuge + stateInitialized := by
  have hle : sclassSmallMax ≤ sclassLargeMax := by decide
  unfold AllocatedAfter
  rw [if_neg (by omega), if_neg (by omega), show r.ptr / blockSize = p by simp only [blockSize]; omega]

theorem allocatedAfter_small {i : ℕ} (hs : r.nBytes ≤ sclassSmallMax) (hsize : 1 ≤ r.nBytes)
    (hi : i < slotsPerRun (roundUp r.nBytes 64))
    (hptr : r.ptr = 4096 * p + 64 + roundUp r.nBytes 64 * i) :
    AllocatedAfter img r ↔ recoveredBit img p i = true := by
  obtain ⟨hpage, hslot, -⟩ := smallRegion_slot hsize hi hptr
  unfold AllocatedAfter
  rw [if_pos hs, hpage, hslot]

/-- Between two calls a region is allocated exactly if it is active. -/
theorem HeapInv.allocatedAfter_iff (h : HeapInv L w live) (hr : r ∈ live)
    (hsame : ∀ {p t}, L p = some t → EqOn w.nvm.mem img.mem (4096 * p) 64) :
    AllocatedAfter img r ↔ r.active = true := by
  have hsize := (h.live.size r hr).1
  have hpend {p : ℕ} {t : Tile} (hp : L p = some t) : ¬ Pending img.mem p := by
    have hquiet := (h.nvm.quiet hp).settled.not_pending
    unfold Pending at hquiet ⊢
    rwa [field_eqOn (hsame hp) (by decide)]
  cases h.live.placed r hr with
  | @small hs p k i htile helem hi hptr hbit hnvm =>
    rw [helem] at hi hptr
    have hlt := (smallRegion_slot hsize hi hptr).2.2
    rw [allocatedAfter_small hs hsize hi hptr, recoveredBit_of_not_pending (hpend htile),
      bitmapBit_eqOn (hsame htile) hlt, hnvm]
  | @large hlo hhi p htile hptr =>
    rw [allocatedAfter_large hlo hhi hptr, recoveredState_of_not_pending (hpend htile),
      field_eqOn (hsame htile) (by decide), (h.nvm.quiet htile).2.2.1]
    cases r.active <;> decide
  | @huge hlo p htile hptr =>
    rw [allocatedAfter_huge hlo hptr, recoveredState_of_not_pending (hpend htile),
      field_eqOn (hsame htile) (by decide)]
    have hst := (h.nvm.quiet htile).2.1
    cases hactive : r.active with
    | false =>
      rw [hactive] at hst
      rcases hst with hst | hst <;> rw [hst] <;> decide
    | true =>
      rw [hactive] at hst
      exact iff_of_true hst rfl

/-- The log of an activation names the region. -/
theorem namedBefore_activationLog (hpos : r.ptr ≠ 0) (hlog : img.log = activationLog w r.ptr)
    (hp : r.ptr / 4096 = p) : NamedBefore img maxLogEntries p := by
  have hentry : img.log (w.nextLogEntry % maxLogEntries) = r.ptr := by
    rw [hlog]
    exact Function.update_self ..
  exact ⟨_, Nat.mod_lt _ (by decide), by rw [hentry]; exact hpos, by rw [hentry]; exact hp⟩

/-- Before the call nothing has happened. -/
theorem HeapInv.outcome_start (h : HeapInv L w live) (hr : r ∈ live) {b : Bool} (hactive : r.active = !b)
    (hmem : img.mem = w.nvm.mem) : CallOutcome L w r l1 l2 b img := by
  have htile := h.onTile hr
  obtain ⟨-, t, hp⟩ := htile.page (h.live.size r hr).1
  rw [← hmem] at htile
  refine ⟨htile, Or.inl ⟨?_, ?_, fun _ _ => by rw [hmem]⟩⟩
  · rw [h.allocatedAfter_iff hr fun _ => by rw [hmem]; exact EqOn.refl _ _ _, hactive]
    cases b <;> decide
  · rw [hmem]
    exact (h.nvm.quiet hp).settled.not_pending

/-- A crash inside the protocol of a large or huge region; `code` is the state byte of an allocated
one. -/
theorem HeapInv.outcome_hdr (h : HeapInv L w live) (hr : r ∈ live) {b : Bool} {code : ℕ}
    (hactive : r.active = !b) (hp : L p = some t) (hpage : r.ptr / 4096 = p) (htile : OnTile L img.mem r)
    (hcode : ∀ img : Nvm, AllocatedAfter img r ↔ recoveredState img p = code)
    (hprog : HdrProgress w.nvmStart w.nvm.mem (4096 * p) committed final l1 l2 img.mem)
    (hredone : redoneState committed = final)
    (hcommitted : getState committed = stateFreeing ∨ getState committed = stateActivating)
    (hfinal : getState final = stateInitialized ∧ (final = code ↔ b = true))
    (hnamed : Pending img.mem p → NamedBefore img maxLogEntries p) : CallOutcome L w r l1 l2 b img := by
  have hold := (h.nvm.quiet hp).settled.not_pending
  have hbefore : field w.nvm.mem (4096 * p) stateF = code ↔ b = false := by
    rw [← recoveredState_of_not_pending hold, ← hcode, h.allocatedAfter_iff hr fun _ => EqOn.refl _ _ _,
      hactive]
    cases b <;> decide
  refine ⟨htile, ?_⟩
  rw [hcode, hpage]
  rcases hprog.outcome hp hold hredone hcommitted hfinal.1 hnamed with
    ⟨hst, hpend, hoff⟩ | ⟨hst, hwords⟩
  · rw [hst]
    exact Or.inl ⟨hbefore, hpend, hoff⟩
  · rw [hst]
    exact Or.inr ⟨hfinal.2, hwords⟩

/-- The run protocol leaves the element size alone. -/
theorem RunProgress.nBytes_eq {i pre : ℕ} {b : Bool}
    (hm₀ : m₀ = store w.nvm.mem (4096 * p + stateF.off) stateF.width pre) (hpre : pre < 256)
    (hprog : RunProgress w.nvmStart m₀ (4096 * p) committed i b l1 l2 m) :
    field m (4096 * p) nBytesF = field w.nvm.mem (4096 * p) nBytesF := by
  obtain ⟨heq₀, -⟩ := acquired_facts hm₀ hpre
  obtain ⟨ws, st, bits, -, hstage, -⟩ := hprog.stage
  refine field_congr fun x hx hx' => ?_
  simp only [nBytesF] at hx hx'
  rw [hstage.keep x (by omega) (by omega) (by omega), heq₀ x (by omega)]

/-- A crash inside the protocol of a small region. -/
theorem HeapInv.outcome_run (h : HeapInv L w live) (hr : r ∈ live) {b : Bool} {k i pre : ℕ}
    (hactive : r.active = !b) (hp : L p = some (.run k)) (hi : i < slotsPerRun (w.vheaders k).elemSize)
    (hptr : r.ptr = 4096 * p + 64 + (w.vheaders k).elemSize * i)
    (hm₀ : m₀ = store w.nvm.mem (4096 * p + stateF.off) stateF.width pre)
    (hprog : RunProgress w.nvmStart m₀ (4096 * p) committed i b l1 l2 img.mem)
    (hpre : pre = usageRun + statePreactivate ∨ pre = usageRun + statePrefree)
    (hcommitted : b = true ∧ committed = usageRun + stateActivating ∨
      b = false ∧ committed = usageRun + stateFreeing)
    (hnamed : Pending img.mem p → NamedBefore img maxLogEntries p) : CallOutcome L w r l1 l2 b img := by
  have hsize := (h.live.size r hr).1
  have hpage := h.page_of_slot hp hi hptr
  obtain ⟨hs, helem, -, hbit⟩ := h.region_of_slot hr hp hi hptr
  have hpre256 : pre < 256 := by rcases hpre with rfl | rfl <;> decide
  have htile : OnTile L img.mem r := (h.onTile hr).congr (fun hq hpage' => by
    rw [← hpage', hpage]
    exact hprog.nBytes_eq hm₀ hpre256) hsize
  rw [helem] at hi hptr
  have hlt := (smallRegion_slot hsize hi hptr).2.2
  refine ⟨htile, ?_⟩
  rw [allocatedAfter_small hs hsize hi hptr, hpage]
  rcases hprog.outcome hp hlt hm₀ hpre hcommitted hnamed with ⟨hst, hpend, hoff⟩ | ⟨hst, hwords⟩
  · rw [hst, hbit, hactive]
    exact Or.inl ⟨by cases b <;> decide, hpend, hoff⟩
  · rw [hst]
    exact Or.inr ⟨Iff.rfl, hwords⟩

/-- **What a crash inside `nvm_activate` left.** -/
theorem ActivateImage.outcome (h : HeapInv L w live) (hr : r ∈ live) (hactive : r.active = false)
    (himg : ActivateImage L w r l1 l2 img) : CallOutcome L w r l1 l2 true img := by
  have hsize := (h.live.size r hr).1
  have htile := h.onTile hr
  obtain ⟨hpos, -⟩ := htile.page hsize
  cases himg with
  | start => exact h.outcome_start hr hactive rfl
  | logged => exact h.outcome_start hr hactive rfl
  | @huge p n m hp hptr hprog =>
    have hpage : r.ptr / 4096 = p := by omega
    have hlo := (htile.class_of_tile hsize (hpage ▸ hp)).2 rfl
    exact h.outcome_hdr hr hactive hp hpage (.huge hlo hp hptr)
      (fun _ => allocatedAfter_huge hlo hptr) hprog
      (by decide) (by decide) (by decide) fun _ => namedBefore_activationLog hpos rfl hpage
  | @large p n m hp hptr hprog =>
    have hpage : r.ptr / 4096 = p := by omega
    obtain ⟨hlo, hhi⟩ := (htile.class_of_tile hsize (hpage ▸ hp)).1 rfl
    exact h.outcome_hdr hr hactive hp hpage (.large hlo hhi hp hptr)
      (fun _ => allocatedAfter_large hlo hhi hptr) hprog (by decide) (by decide) (by decide)
      fun _ => namedBefore_activationLog hpos rfl hpage
  | @small p k i m₀ m hp hi hptr hm₀ hprog =>
    have hpage := h.page_of_slot hp hi hptr
    exact h.outcome_run hr hactive hp hi hptr hm₀ hprog (Or.inl rfl) (Or.inl ⟨rfl, rfl⟩)
      fun _ => namedBefore_activationLog hpos rfl hpage

/-- A free leaves the tile of the region alone. -/
theorem FreeImage.onTile (h : HeapInv L w live) (hr : r ∈ live) (himg : FreeImage L w r l1 l2 img) :
    OnTile L img.mem r := by
  refine (h.onTile hr).congr (fun {q k} hq hpage => ?_) (h.live.size r hr).1
  cases himg with
  | start => rfl
  | @huge p n m hp hptr hprog =>
    rw [show q = p by omega, hp] at hq
    exact absurd (Option.some.inj hq) (by simp)
  | @large p n m hp hptr hprog =>
    rw [show q = p by omega, hp] at hq
    exact absurd (Option.some.inj hq) (by simp)
  | @small p k i m₀ m hp hi hptr hm₀ hprog =>
    rw [← hpage, h.page_of_slot hp hi hptr]
    exact hprog.nBytes_eq hm₀ (by decide)

/-- **What a crash inside `nvm_free` left**, if a log entry names the header in transition. -/
theorem FreeImage.outcome (h : HeapInv L w live) (hr : r ∈ live) (hactive : r.active = true)
    (hnamed : Pending img.mem (r.ptr / 4096) → NamedBefore img maxLogEntries (r.ptr / 4096))
    (himg : FreeImage L w r l1 l2 img) : CallOutcome L w r l1 l2 false img := by
  have hsize := (h.live.size r hr).1
  have htile := h.onTile hr
  cases himg with
  | start => exact h.outcome_start hr hactive rfl
  | @huge p n m hp hptr hprog =>
    have hpage : r.ptr / 4096 = p := by omega
    have hlo := (htile.class_of_tile hsize (hpage ▸ hp)).2 rfl
    exact h.outcome_hdr hr hactive hp hpage (.huge hlo hp hptr)
      (fun _ => allocatedAfter_huge hlo hptr) hprog
      (by decide) (by decide) (by decide) fun hpend => hpage ▸ hnamed (hpage ▸ hpend)
  | @large p n m hp hptr hprog =>
    have hpage : r.ptr / 4096 = p := by omega
    obtain ⟨hlo, hhi⟩ := (htile.class_of_tile hsize (hpage ▸ hp)).1 rfl
    exact h.outcome_hdr hr hactive hp hpage (.large hlo hhi hp hptr)
      (fun _ => allocatedAfter_large hlo hhi hptr) hprog (by decide) (by decide) (by decide)
      fun hpend => hpage ▸ hnamed (hpage ▸ hpend)
  | @small p k i m₀ m hp hi hptr hm₀ hprog =>
    have hpage := h.page_of_slot hp hi hptr
    exact h.outcome_run hr hactive hp hi hptr hm₀ hprog (Or.inr rfl) (Or.inr ⟨rfl, rfl⟩)
      fun hpend => hpage ▸ hnamed (hpage ▸ hpend)

/-! ## The rest of NVM -/

/-- The run protocol changes the header line and the link words. -/
theorem RunProgress.off {i pre : ℕ} {b : Bool}
    (hm₀ : m₀ = store w.nvm.mem (4096 * p + stateF.off) stateF.width pre) (hpre : pre < 256)
    (hprog : RunProgress w.nvmStart m₀ (4096 * p) committed i b l1 l2 m) :
    ∃ ws, ws <+: linkWords w.nvmStart l1 l2 ∧ EqOff (storeWords w.nvm.mem ws) m (4096 * p) 64 := by
  obtain ⟨heq₀, -⟩ := acquired_facts hm₀ hpre
  obtain ⟨ws, st, bits, hws, hstage, -⟩ := hprog.stage
  exact ⟨ws, hws, ((heq₀.mono le_rfl (by omega)).storeWords ws).trans hstage.off⟩

/-- The header protocol of a large or huge region leaves the object table alone. -/
theorem HeapInv.table_of_hdr (h : HeapInv L w live) (hp : L p = some t) (hne : t ≠ .arena)
    (hbodies : L.Bodies (linkWords w.nvmStart l1 l2))
    (hprog : HdrProgress w.nvmStart w.nvm.mem (4096 * p) committed final l1 l2 m) :
    ∀ c < initialArenas, EqOn w.nvm.mem m (4194304 * c) 4096 := by
  obtain ⟨ws, st, hws, hstage, -⟩ := hprog.stage
  exact h.table_of_protocol hp hne (hbodies.of_prefix hws) hstage.off

/-- An activation leaves the number of chunks and the object table alone. -/
theorem ActivateImage.table (h : HeapInv L w live) (h1 : LinkOk live l1) (h2 : LinkOk live l2)
    (himg : ActivateImage L w r l1 l2 img) : img.nextChunk = w.nvm.nextChunk ∧
      ∀ c < initialArenas, EqOn w.nvm.mem img.mem (4194304 * c) 4096 := by
  have hbodies := h.live.linkWords w.nvmStart h1 h2
  cases himg with
  | start => exact ⟨rfl, fun _ _ => EqOn.refl _ _ _⟩
  | logged => exact ⟨rfl, fun _ _ => EqOn.refl _ _ _⟩
  | huge hp hptr hprog =>
    exact ⟨rfl, h.table_of_hdr hp (by simp) hbodies hprog⟩
  | large hp hptr hprog =>
    exact ⟨rfl, h.table_of_hdr hp (by simp) hbodies hprog⟩
  | small hp hi hptr hm₀ hprog =>
    obtain ⟨ws, hws, hoff⟩ := hprog.off hm₀ (by decide)
    exact ⟨rfl, h.table_of_protocol hp (by simp) (hbodies.of_prefix hws) hoff⟩

/-- A free leaves the number of chunks and the object table alone. -/
theorem FreeImage.table (h : HeapInv L w live) (h1 : LinkOk live l1) (h2 : LinkOk live l2)
    (himg : FreeImage L w r l1 l2 img) : img.nextChunk = w.nvm.nextChunk ∧
      ∀ c < initialArenas, EqOn w.nvm.mem img.mem (4194304 * c) 4096 := by
  have hbodies := h.live.linkWords w.nvmStart h1 h2
  cases himg with
  | start => exact ⟨rfl, fun _ _ => EqOn.refl _ _ _⟩
  | huge hp hptr hprog =>
    exact ⟨rfl, h.table_of_hdr hp (by simp) hbodies hprog⟩
  | large hp hptr hprog =>
    exact ⟨rfl, h.table_of_hdr hp (by simp) hbodies hprog⟩
  | small hp hi hptr hm₀ hprog =>
    obtain ⟨ws, hws, hoff⟩ := hprog.off hm₀ (by decide)
    exact ⟨rfl, h.table_of_protocol hp (by simp) (hbodies.of_prefix hws) hoff⟩

end

end NvmMalloc
