import NvmMalloc.TableRecovery
import NvmMalloc.RecoveredHeap

/-!
# The object table after a restart

Reference: `src/nvm_malloc.c` (`nvm_initialize`), `src/object_table.c` (`ot_recover`).

Recovery of the heap writes headers and the links that an interrupted call recorded; it does not touch
the slots of the object table.  So the table is rebuilt from the slots of the image.
-/

namespace NvmMalloc

open Memory CrashM

section

variable {P : Process} {B : Blame} {L : Layout} {p₀ : ℕ} {img : Nvm} {w₀ w w' : World} {m m' : Mem}
  {n s : ℕ}

/-! ## The slots under recovery of the heap -/

/-- Recovery of the heap leaves the slots alone. -/
theorem Recovered.slot_eqOn (h : Recovered P L p₀ img w₀ w) (hb : Blames B L img) (hstale : ¬ B.stale)
    (hs : s < 1260) : EqOn img.mem w.nvm.mem (otSlotAddr s) 64 := by
  refine (h.log.slot_eqOn hb h.inv hstale hs).trans fun x hlo hhi => h.scan.mem x fun q hq hbyte => ?_
  have hbounds := otSlotAddr_bounds (s := s)
  have hmod := (mem_newRuns.mp hq).1.2.1
  unfold ScanByte at hbyte
  omega

/-- The log names no chunk header of an arena. -/
theorem ImgInv.not_named_arena (h : ImgInv L p₀ img) {p : ℕ} (hp : L p = some .arena) :
    ¬ NamedBefore img maxLogEntries p := by
  rintro ⟨j, hj, hne, rfl⟩
  obtain ⟨q, t, hq, hnames⟩ := h.log j hj hne
  rw [hnames.page, hq] at hp
  rw [Option.some.inj hp] at hnames
  exact hnames

/-- Recovery of the heap leaves the chunk headers of the arenas alone. -/
theorem Recovered.chain_eqOn (h : Recovered P L p₀ img w₀ w) (hchunks : 20 ≤ img.nextChunk) {c : ℕ}
    (hc : c < 20) : EqOn img.mem w.nvm.mem (4194304 * c) 64 := by
  have harena := h.inv.base h.unstuck c hc (by omega)
  have hlog := h.log.same harena (h.inv.not_named_arena harena)
  rw [show 4096 * (1024 * c) = 4194304 * c by omega] at hlog
  refine hlog.trans fun x hlo hhi => h.scan.mem x fun q hq hbyte => ?_
  have hmod := (mem_newRuns.mp hq).1.2.1
  unfold ScanByte at hbyte
  omega

/-- No header state is one that `ot_recover` looks for: it compares the whole byte. -/
theorem keepsBlock_eq_false {h st : ℕ} (hst : field m h stateF = st) (hge : 16 ≤ st ∨ st = 0) :
    keepsBlock m h = false := by
  unfold keepsBlock
  rw [hst]
  refine decide_eq_false ?_
  simp only [statePrefree, stateActivating, stateInitialized]
  omega

theorem keepsSlot_eq_false {h st j : ℕ} (hst : field m h stateF = st) (hge : 16 ≤ st) :
    keepsSlot m h j = false := by
  unfold keepsSlot
  rw [hst]
  refine decide_eq_false ?_
  simp only [statePrefree, stateActivating, stateInitialized]
  omega

/-- After recovery of the heap `ot_recover` drops every slot in state INITIALIZING. -/
theorem Recovered.slotDropped (h : Recovered P L p₀ img w₀ w) (hb : Blames B L img) (hconv : ¬ B.convert)
    (hs : s < 1260) (hslot : EqOn img.mem w.nvm.mem (otSlotAddr s) 64) (hpend : SlotPending img.mem s) :
    SlotDropped w.nvm.mem s := by
  obtain ⟨p, t, hp, hnames⟩ := h.inv.slots s hs hpend
  intro w₂ hw₂
  rw [field_eqOn hslot (by decide)]
  generalize field img.mem (otSlotAddr s) otPtrF = x at hnames
  have heq : EqOn w.nvm.mem w₂.nvm.mem (4096 * p) 64 := by
    intro a hlo hhi
    refine hw₂ a fun s' _ => ?_
    have hbounds := otSlotAddr_bounds (s := s')
    omega
  have hhdr := h.aligned.hdr hp
  have hstate : field w₂.nvm.mem (4096 * p) stateF = field w.nvm.mem (4096 * p) stateF :=
    field_eqOn heq (by decide)
  unfold otKeep
  rw [spec_bind, spec_get]
  cases t with
  | arena => exact absurd hnames id
  | stuck n => exact absurd hp (h.unstuck p n)
  | huge n o =>
    have hfits : (Tile.huge n o).Fits p := h.inv.ok.fits hp
    simp only [Tile.Fits] at hfits
    have hx : x = 4096 * p + 64 := hnames
    have hid : identifyUsage w₂.nvm.mem x = some .huge := by
      rw [identifyUsage, if_pos (by simp only [chunkSize, headerSize]; omega)]
    have hkeep : keepsBlock w₂.nvm.mem (x - headerSize) = false := by
      rw [show x - headerSize = 4096 * p by simp only [headerSize]; omega]
      refine keepsBlock_eq_false hstate (Or.inl ?_)
      have hst := hhdr.2
      simp only [List.mem_cons, List.not_mem_nil, or_false] at hst
      rcases hst with hst | hst | hst | hst | hst <;> rw [hst] <;> decide
    rw [hid]
    exact spec_pure.mpr ⟨hkeep, rfl⟩
  | block n o =>
    have hfits : (Tile.block n o).Fits p := h.inv.ok.fits hp
    simp only [Tile.Fits] at hfits
    have hx : x = 4096 * p + 64 := hnames
    have hne : field w.nvm.mem (4096 * p) stateF ≠ 0 := by
      rw [h.scan.field_eq (by decide)]
      exact h.log.state_ne_zero hb h.inv hconv hp
    have hst := hhdr.2.2
    simp only [List.mem_cons, List.not_mem_nil, or_false] at hst
    have hid : identifyUsage w₂.nvm.mem x = some .block := by
      rw [hx, identifyUsage_page _ (by omega), hstate, if_pos]
      rcases hst with hst | hst | hst | hst | hst | hst
      · exact absurd hst hne
      all_goals
        rw [hst]
        decide
    have hkeep : keepsBlock w₂.nvm.mem (x - headerSize) = false := by
      rw [show x - headerSize = 4096 * p by simp only [headerSize]; omega]
      refine keepsBlock_eq_false hstate ?_
      rcases hst with hst | hst | hst | hst | hst | hst <;> rw [hst] <;> decide
    rw [hid]
    exact spec_pure.mpr ⟨hkeep, rfl⟩
  | run k =>
    have hfits : (Tile.run k).Fits p := h.inv.ok.fits hp
    simp only [Tile.Fits] at hfits
    have hpage := hnames.page
    have hid : identifyUsage w₂.nvm.mem x = some .run := by
      refine identifyUsage_run hnames (by omega) ?_
      rw [hstate]
      exact (hhdr.usage (by simp)).2.mpr ⟨k, rfl⟩
    have hbytes : field w₂.nvm.mem (4096 * p) nBytesF ≠ 0 := by
      rw [field_eqOn heq (by decide)]
      obtain ⟨c, -, hn⟩ := hhdr.1.1
      omega
    have hkeep : ∀ j, keepsSlot w₂.nvm.mem (4096 * p) j = false := by
      intro j
      refine keepsSlot_eq_false hstate ?_
      have hst := hhdr.2.1
      simp only [List.mem_cons, List.not_mem_nil, or_false] at hst
      rcases hst with hst | hst | hst | hst | hst <;> rw [hst] <;> decide
    rw [hid]
    simp only [show x / blockSize * blockSize = 4096 * p by simp only [blockSize]; omega]
    rw [spec_ite]
    exact ⟨fun h0 => absurd h0 hbytes, fun _ => spec_pure.mpr ⟨hkeep _, rfl⟩⟩

/-! ## Images with the same slots -/

theorem usedSlots_congr (h : ∀ s < n, SlotUsed m' s ↔ SlotUsed m s) :
    usedSlots m' n = usedSlots m n := by
  induction n with
  | zero => rfl
  | succ n ih =>
    rw [usedSlots, usedSlots, ih fun s hs => h s (Nat.lt_succ_of_lt hs)]
    exact if_congr (h n (Nat.lt_succ_self n)) rfl rfl

theorem gapSlots_congr (h : ∀ s < n, SlotUsed m' s ↔ SlotUsed m s) : gapSlots m' n = gapSlots m n := by
  have hlast : lastUsedSlot m' n = lastUsedSlot m n := by
    unfold lastUsedSlot
    rw [usedSlots_congr h]
  unfold gapSlots
  rw [hlast]
  refine List.filter_congr fun s hs => ?_
  rw [List.mem_range] at hs
  have hlt : s < n := by
    rcases lastUsedSlot_used m n with h0 | ⟨hlt, -⟩ <;> omega
  exact decide_eq_decide.mpr (and_congr_right fun _ => not_congr (h s hlt))

/-! ## Recovery as a whole -/

/-- Recovery of the heap, then of the table. -/
theorem recovers_iff (hchunks : 20 ≤ img.nextChunk) : Recovers P img w' ↔
    ∃ fuel w, (recoverHeap fuel (P.start img)).2 = .ok ((), w) ∧
      ((otInit fuel >>= fun _ => otRecover P.junk fuel) w).2 = .ok ((), w') := by
  have hsplit : ∀ fuel, (nvmInitialize P.junk fuel true (P.start img)).2 =
      ((recoverHeap fuel >>= fun _ => otInit fuel >>= fun _ => otRecover P.junk fuel)
        (P.start img)).2 := by
    intro fuel
    have hne : ¬ ((!true) = true ∨ (P.start img).nvm.nextChunk = 0) := by
      show ¬ (_ ∨ img.nextChunk = 0)
      simp
      omega
    show ((if (!true) = true ∨ (P.start img).nvm.nextChunk = 0 then _ else _ : Prog Unit)
        (P.start img)).2 = _
    rw [if_neg hne]
  unfold Recovers
  refine exists_congr fun fuel => ?_
  rw [hsplit, bind_result]
  exact ⟨fun ⟨_, w, hw⟩ => ⟨w, hw⟩, fun ⟨w, hw⟩ => ⟨(), w, hw⟩⟩

theorem Recovered.slotUsed_iff (h : Recovered P L p₀ img w₀ w) (hb : Blames B L img)
    (hstale : ¬ B.stale) : ∀ s < 1260, SlotUsed w.nvm.mem s ↔ SlotUsed img.mem s :=
  fun _ hs => slotUsed_eqOn (h.slot_eqOn hb hstale hs)

/-- `ot_recover` on a recovered heap reads the slots of the image. -/
theorem Recovered.table_spec {fuel : ℕ} (h : Recovered P L p₀ img w₀ w) (hb : Blames B L img)
    (hstale : ¬ B.stale) (hchunks : 20 ≤ img.nextChunk) (hchain : ∀ c < 20,
      field img.mem (4194304 * c) nextOtChunkF = if c < 19 then 4194304 * (c + 1) else 0)
    (hdrop : ∀ s < 1260, SlotPending img.mem s → SlotDropped w.nvm.mem s) :
    Spec (otInit fuel >>= fun _ => otRecover P.junk fuel) (fun _ => True)
      (fun _ w' => TableRead P.junk (w.setOt emptyTable) 1260 w')
      (fun e => e = .fault ∧ slotBufferSize < (gapSlots img.mem 1260).length ∨
        e = .diverges ∧ fuel < 20) w := by
  have hchain' : ∀ c < 20,
      field w.nvm.mem (4194304 * c) nextOtChunkF = if c < 19 then 4194304 * (c + 1) else 0 := by
    intro c hc
    rw [field_eqOn (h.chain_eqOn hchunks hc) (by decide), hchain c hc]
  have hot : w.ot = { emptyTable with totalSlotsAvailable := 0 } := by
    rw [h.scan.ot, h.log.ot]
    rfl
  have hdrop' : ∀ s < 1260, SlotPending w.nvm.mem s → SlotDropped w.nvm.mem s := by
    intro s hs hpend
    refine hdrop s hs ?_
    unfold SlotPending at hpend ⊢
    rwa [field_eqOn (h.slot_eqOn hb hstale hs) (by decide)] at hpend
  rw [← gapSlots_congr (h.slotUsed_iff hb hstale)]
  exact (otInit_otRecover_spec hchain' hot hdrop').imp fun _ _ h => h.1

/-- What a completed restart has done. -/
theorem Blames.tableRead (hb : Blames B L img) (himg : ImgInv L p₀ img) (hconv : ¬ B.convert)
    (hstale : ¬ B.stale) (hchunks : 20 ≤ img.nextChunk) (hchain : ∀ c < 20,
      field img.mem (4194304 * c) nextOtChunkF = if c < 19 then 4194304 * (c + 1) else 0)
    (hrec : Recovers P img w') :
    ∃ w₀ w₁ w₂, Recovered P L p₀ img w₀ w₁ ∧ w₂.nvm = w₁.nvm ∧ w₂.nvmStart = P.nvmStart ∧
      (∀ s < 1260, EqOn img.mem w₂.nvm.mem (otSlotAddr s) 64) ∧ TableRead P.junk w₂ 1260 w' := by
  obtain ⟨fuel, w₁, hheap, htable⟩ := (recovers_iff hchunks).mp hrec
  obtain ⟨w₀, hr⟩ := exists_recovered himg (hb.wordsClear himg hstale) ⟨fuel, hheap⟩
  have hread := (hr.table_spec hb hstale hchunks hchain fun s hs hpend =>
    hr.slotDropped hb hconv hs (hr.slot_eqOn hb hstale hs) hpend).result htable
  have hstart : w₁.nvmStart = P.nvmStart := by
    rw [hr.scan.nvmStart, hr.log.nvmStart]
  exact ⟨w₀, w₁, w₁.setOt emptyTable, hr, rfl, hstart, fun s hs => hr.slot_eqOn hb hstale hs, hread⟩

/-- The object table is rebuilt without a store to a header or outside the tables. -/
theorem Blames.restart (hb : Blames B L img) (himg : ImgInv L p₀ img) (hconv : ¬ B.convert)
    (hstale : ¬ B.stale) (hchunks : 20 ≤ img.nextChunk) (hchain : ∀ c < 20,
      field img.mem (4194304 * c) nextOtChunkF = if c < 19 then 4194304 * (c + 1) else 0)
    (hrec : Recovers P img w') :
    ∃ w₀ w₁, Recovered P L p₀ img w₀ w₁ ∧ w'.nvm.nextChunk = w₁.nvm.nextChunk ∧
      (∀ p, EqOn w₁.nvm.mem w'.nvm.mem (4096 * p) 64) ∧
      ∀ x, (∀ c < 20, x < 4194304 * c ∨ 4194304 * c + 4096 ≤ x) → w'.nvm.mem x = w₁.nvm.mem x := by
  obtain ⟨w₀, w₁, w₂, hr, hnvm, -, -, hread⟩ := hb.tableRead himg hconv hstale hchunks hchain hrec
  have hmem : ∀ x, (∀ s < 1260, x < otSlotAddr s ∨ otSlotAddr s + 64 ≤ x) →
      w'.nvm.mem x = w₁.nvm.mem x := by
    intro x hx
    rw [hread.mem_eq, hnvm]
    exact clearSlots_apply hx
  refine ⟨w₀, w₁, hr, ?_, fun p x hlo hhi => hmem x fun s _ => ?_, fun x hx => hmem x fun s hs => ?_⟩
  · rw [hread.nextChunk_eq, hnvm]
  · have hbounds := otSlotAddr_bounds (s := s)
    omega
  · have hbounds := otSlotAddr_bounds (s := s)
    have := hx (s / 63) (by omega)
    omega

/-- A restart completes on the images of calls that recovery can cope with, unless the slot buffer
overflows. -/
theorem Blames.exists_recovers (hb : Blames B L img) (himg : ImgInv L p₀ img)
    (hB : ¬ B.grow ∧ ¬ B.convert ∧ ¬ B.fresh ∧ ¬ B.stale) (hchunks : 20 ≤ img.nextChunk)
    (hchain : ∀ c < 20,
      field img.mem (4194304 * c) nextOtChunkF = if c < 19 then 4194304 * (c + 1) else 0)
    (hgaps : (gapSlots img.mem 1260).length ≤ slotBufferSize) (P : Process) :
    ∃ w', Recovers P img w' := by
  obtain ⟨hgrow, hconv, hfresh, hstale⟩ := hB
  obtain ⟨fuel, w₁, hfuel, hheap⟩ := hb.exists_recoverHeap (P := P) himg hgrow hconv hfresh hstale
  obtain ⟨w₀, hr⟩ := exists_recovered himg (hb.wordsClear himg hstale) ⟨fuel, hheap⟩
  have hspec : Spec (otInit fuel >>= fun _ => otRecover P.junk fuel) _ _ _ w₁ :=
    hr.table_spec hb hstale hchunks hchain fun s hs hpend =>
      hr.slotDropped hb hconv hs (hr.slot_eqOn hb hstale hs) hpend
  obtain ⟨_, w', hret, -⟩ := (hspec.mono (fun _ h => h) (fun _ _ h => h) fun e he => by
    rcases he with ⟨-, hlong⟩ | ⟨-, hlt⟩ <;> omega).returns
  exact ⟨w', (recovers_iff hchunks).mpr ⟨fuel, w₁, hheap, hret⟩⟩

/-- The entries that are read back answer as a map to which each of them contributes one short key. -/
theorem TableRead.nvmGetId_eq {junk : ℕ → List UInt8} (h : TableRead junk w 1260 w')
    {names : List UInt8 → Option ℕ}
    (hnames : ∀ id ptr, names id = some ptr ↔ ∃ s < 1260, SlotUsed w.nvm.mem s ∧
      (recoveredEntry junk w.nvm.mem s).id = id ∧ (recoveredEntry junk w.nvm.mem s).dataPtr = ptr)
    (hshort : ∀ s < 1260, SlotUsed w.nvm.mem s →
      (recoveredEntry junk w.nvm.mem s).id.length < maxIdLength) (id : List UInt8) :
    nvmGetId w' id = names id := by
  have hfound : ∀ {e}, otGet w'.ot id = some e → names id = some e.dataPtr := by
    intro e hget
    obtain ⟨hmem, heq⟩ := otGet_has hget
    obtain ⟨s, hs, hused, rfl⟩ := h.has_iff.mp ⟨_, hmem⟩
    rw [equalFn_iff_of_short (hshort s hs hused)] at heq
    exact (hnames id _).mpr ⟨s, hs, hused, heq.symm, rfl⟩
  unfold nvmGetId
  cases hget : otGet w'.ot id with
  | some e => exact (hfound hget).symm
  | none =>
    cases hname : names id with
    | none => rfl
    | some ptr =>
      obtain ⟨s, hs, hused, hid, -⟩ := (hnames id ptr).mp hname
      have hmem : recoveredEntry junk w.nvm.mem s ∈ w'.ot.hashmap (bucketOf id) := by
        rw [h.hashmap, List.mem_filter]
        refine ⟨List.mem_map.mpr ⟨s, mem_usedSlots.mpr ⟨hs, hused⟩, rfl⟩, decide_eq_true ?_⟩
        rw [hid]
      have hmiss := List.find?_eq_none.mp hget _ hmem
      rw [equalFn_iff_of_short (hshort s hs hused)] at hmiss
      exact absurd hid.symm hmiss

/-- A short identifier is read back as it was written. -/
theorem OnNvm.recoveredKey_eq {e : OtEntry} (h : OnNvm m e) (hnul : (0 : UInt8) ∉ e.id)
    (hlen : e.id.length < maxIdLength) (junk : List UInt8) :
    recoveredKey (nvmIdBytes m e.nvmEntry) junk = e.id := by
  obtain ⟨k, hk⟩ : ∃ k, maxIdLength - e.id.length = k + 1 := ⟨maxIdLength - e.id.length - 1, by omega⟩
  have hbytes : nvmIdBytes m e.nvmEntry = e.id ++ 0 :: List.replicate k 0 := by
    rw [h.id, hk, List.replicate_succ]
  unfold recoveredKey
  rw [hbytes, if_pos (List.mem_append_right _ List.mem_cons_self)]
  have hall : ∀ x ∈ e.id, decide (x ≠ 0) = true := by
    intro x hx
    refine decide_eq_true ?_
    rintro rfl
    exact hnul hx
  rw [List.takeWhile_append_of_pos hall, List.takeWhile_cons_of_neg (by simp), List.append_nil]

/-- Without room for a NUL the identifier is read back with what lies behind it. -/
theorem OnNvm.recoveredKey_full {e : OtEntry} (h : OnNvm m e) (hnul : (0 : UInt8) ∉ e.id)
    (hlen : e.id.length = maxIdLength) (junk : List UInt8) :
    recoveredKey (nvmIdBytes m e.nvmEntry) junk = e.id ++ junk := by
  have hbytes : nvmIdBytes m e.nvmEntry = e.id := by
    rw [h.id, hlen, Nat.sub_self]
    exact List.append_nil _
  unfold recoveredKey
  rw [hbytes, if_neg hnul]

/-- The slots lie on the header pages of the first chunks. -/
theorem slot_eqOn_of_table {m m' : Mem} (htable : ∀ c < initialArenas, EqOn m m' (4194304 * c) 4096)
    {s : ℕ} (hs : s < 1260) : EqOn m m' (otSlotAddr s) 64 := by
  have hbounds := otSlotAddr_bounds (s := s)
  exact (htable (s / 63) (by simp only [initialArenas]; omega)).mono (by omega) (by omega)

/-- A table of few slots leaves few gaps. -/
theorem OtInv.gapSlots_length_le {ot : ObjectTable} (hot : OtInv ot) {m : Mem}
    (hentries : ∀ s < 1260, SlotUsed m s → ∃ e, ot.Has e ∧ e.slot = s ∧ OnNvm m e) :
    (gapSlots m 1260).length ≤ ot.nextNvmSlot := by
  have hle : (gapSlots m 1260).length ≤ lastUsedSlot m 1260 := by
    refine (List.length_filter_le _ _).trans ?_
    rw [List.length_range]
  rcases lastUsedSlot_used m 1260 with h0 | ⟨hlt, hused⟩
  · omega
  · obtain ⟨e, ⟨b, hmem⟩, hslot, -⟩ := hentries _ hlt hused
    have := (hot.entry hmem).slot
    omega

end

end NvmMalloc
