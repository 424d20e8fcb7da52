import NvmMalloc.ReserveSpec

/-!
# Small requests and the whole reservation

Reference: `src/arena.c` (`arena_allocate`), `src/nvm_malloc.c` (`nvm_reserve`).

`ProcInv` adds the bins to the invariant of the heap.  A small request is served by the sections of
`arena_allocate` under the bin's mutex, whose effect on one bin `BinInv` describes; here that is lifted
to all bins and to the ledger.
-/

namespace NvmMalloc

open Memory CrashM

/-! ## All bins -/

section

variable {H H' : ℕ → ArenaRun} {bin : ℕ × ℕ → ArenaBin} {n n' : ℕ}

/-- A bin does not see changes of other runs. -/
theorem BinInv.congr_runs {nBytes : ℕ} {b : ArenaBin} {R : List ℕ} (h : BinInv nBytes H b R)
    (heq : ∀ r ∈ R, H' r = H r) : BinInv nBytes H' b R := by
  have hpages : (R.map fun r => (H' r).nvmRun) = R.map fun r => (H r).nvmRun :=
    List.map_congr_left fun r hr => by rw [heq r hr]
  have hfree : (R.map fun r => (H' r).nFree) = R.map fun r => (H r).nFree :=
    List.map_congr_left fun r hr => by rw [heq r hr]
  obtain ⟨l, hl, hmem⟩ := h.list
  refine ⟨h.nodup, hpages ▸ h.pages, fun r hr => ?_, fun r hr => ?_, fun r hr => ?_, ?_, h.cur, l,
    hl.congr fun r hr => ?_, fun r => ?_⟩
  · rw [heq r hr]
    exact h.inHeap r hr
  · rw [heq r hr]
    exact h.max r hr
  · rw [heq r hr]
    exact h.free r hr
  · rw [hfree]
    exact h.sum
  · rw [heq r ((hmem r).mp hr).1]
  · rw [hmem]
    constructor
    · rintro ⟨hr, hpos, hcur⟩
      exact ⟨hr, by rwa [heq r hr], hcur⟩
    · rintro ⟨hr, hpos, hcur⟩
      exact ⟨hr, by rwa [← heq r hr], hcur⟩

/-- One bin changes, with its runs. -/
theorem BinsInv.set (h : BinsInv H bin n) {ab : ℕ × ℕ} {b : ArenaBin}
    (hout : ∀ k, k < n' ∧ (H' k).bin ≠ ab ↔ k < n ∧ (H k).bin ≠ ab)
    (hsame : ∀ k < n, (H k).bin ≠ ab → H' k = H k)
    (hnew : ∃ R, BinInv (64 * (ab.2 + 1)) H' b R ∧ ∀ k, k ∈ R ↔ k < n' ∧ (H' k).bin = ab) :
    BinsInv H' (Function.update bin ab b) n' := by
  intro ab'
  by_cases hab : ab' = ab
  · subst hab
    rw [Function.update_self]
    exact hnew
  · rw [Function.update_of_ne hab]
    obtain ⟨R, hinv, hmem⟩ := h ab'
    refine ⟨R, hinv.congr_runs fun r hr => ?_, fun k => ?_⟩
    · obtain ⟨hlt, hbin⟩ := (hmem r).mp hr
      exact hsame r hlt (hbin ▸ hab)
    · rw [hmem]
      constructor
      · rintro ⟨hlt, rfl⟩
        refine ⟨((hout k).mpr ⟨hlt, hab⟩).1, ?_⟩
        rw [hsame k hlt hab]
      · rintro ⟨hlt, rfl⟩
        obtain ⟨hlt', hbin⟩ := (hout k).mp ⟨hlt, hab⟩
        exact ⟨hlt', by rw [hsame k hlt' hbin]⟩

end

/-- The invariant of the process between two calls, apart from the object table. -/
structure ProcInv (L : Layout) (w : World) (live : List Region) : Prop extends HeapInv L w live where
  owned : L.Owned
  bins : BinsInv w.vheaders w.bin w.nVheaders
  version : w.currentVersion = 0

variable {L : Layout} {w : World} {live : List Region} {B : Blame} {p : ℕ}

theorem ProcInv.of_poolOnly {L' : Layout} {w' : World} {live' : List Region} (h : ProcInv L w live)
    (hheap : HeapInv L' w' live') (howned : L'.Owned) (hsame : PoolOnly w w') :
    ProcInv L' w' live' where
  toHeapInv := hheap
  owned := howned
  bins := by
    rw [hsame.vheaders, hsame.bin, hsame.nVheaders]
    exact h.bins
  version := hsame.currentVersion.trans h.version

/-! ## A new run in its bin -/

/-- The heap does not see the bins. -/
theorem HeapInv.setBin (h : HeapInv L w live) (ab : ℕ × ℕ) (b : ArenaBin) :
    HeapInv L (w.setBin ab b) live where
  nvm := h.nvm
  pool := h.pool.congr (fun _ _ _ => Iff.rfl) (fun _ _ _ => Iff.rfl) (fun a => setBin_tree w a ab b) rfl
  runs := h.runs.congr (fun _ _ => Iff.rfl) (fun _ _ _ => EqOn.refl _ _ _) rfl rfl
  live := h.live

theorem HeapInv.run_lt (h : HeapInv L w live) {k : ℕ} (hp : L p = some (.run k)) : p < maxPages := by
  have hend := h.nvm.ok.add_len_le hp
  have hle := h.nvm.le
  rw [Tile.len_run] at hend
  rw [maxPages_eq]
  rw [show maxNvmChunks = 25600 by decide] at hle
  omega

/-- Two VHeaders have different pages. -/
theorem HeapInv.nvmRun_ne (h : HeapInv L w live) {k k' : ℕ} (hp : L p = some (.run k))
    (hk : k' < w.nVheaders) (hne : k' ≠ k) : (w.vheaders k').nvmRun ≠ 4096 * p := by
  intro heq
  obtain ⟨q, hq⟩ := h.runs.tile k' hk
  rw [(h.runs.run hq).2.nvmRun] at heq
  have hqp : q = p := by omega
  rw [hqp, hp, Option.some.injEq, Tile.run.injEq] at hq
  exact hne hq.symm

/-- The new run of `arena_create_run` joins its bin and becomes the current run. -/
theorem ProcInv.addRun (h : ProcInv L w live) {a b nBytes run : ℕ} {w' : World} {C : Prop}
    (hb : b < 31) (hsize : nBytes = 64 * (b + 1)) (hempty : (w.bin (a, b)).nFree = 0)
    (hmade : MadeRun L w live L.Owned C a b nBytes run w') :
    ∃ L', ProcInv L' (w'.setBin (a, b) (NvmMalloc.addRun (w'.bin (a, b)) run nBytes)) live ∧
      0 < (w'.vheaders run).nFree ∧ Evolves C L w.nvm.mem L' w'.nvm.mem := by
  obtain ⟨L', q, hrun, hq, hinv, huntouched, hH, hcount, hbin, howned, hevolves⟩ := hmade
  have hne : ∀ k, k < w.nVheaders → w'.vheaders k = w.vheaders k := fun k hk => by
    rw [hH, Function.update_of_ne (by omega)]
  have hbinRun : (w'.vheaders run).bin = (a, b) := by rw [hH, Function.update_self]; rfl
  obtain ⟨R, hR, hmem⟩ := h.bins (a, b)
  have hnot : run ∉ R := fun hr => by
    have := ((hmem run).mp hr).1
    omega
  have hfresh : ∀ r ∈ R, (w.vheaders r).nvmRun ≠ q * blockSize := by
    intro r hr
    have hlt := ((hmem r).mp hr).1
    rw [← hne r hlt, show q * blockSize = 4096 * q from Nat.mul_comm _ _]
    exact hinv.nvmRun_ne hq (by omega) (by omega)
  refine ⟨L', ⟨hinv.setBin _ _, howned h.owned, ?_, huntouched.currentVersion.trans h.version⟩, ?_,
    hevolves⟩
  · rw [setBin_bin, setBin_vheaders, setBin_nVheaders, hcount, hbin]
    refine h.bins.set (fun k => ?_) (fun k hk _ => hne k hk) ⟨run :: R, ?_, fun k => ?_⟩
    · constructor
      · rintro ⟨hlt, hk⟩
        have hkr : k ≠ run := fun hkr => hk (hkr ▸ hbinRun)
        have hlt' : k < w.nVheaders := by omega
        exact ⟨hlt', by rwa [← hne k hlt']⟩
      · rintro ⟨hlt, hk⟩
        exact ⟨by omega, by rwa [hne k hlt]⟩
    · rw [hH]
      have hadd := hR.addRun_spec (by omega) hempty (a := a) (i := b) hnot (hinv.run_lt hq) hfresh
      rw [← hsize, show q * blockSize = 4096 * q from Nat.mul_comm _ _] at hadd
      rw [← hsize]
      exact hadd
    · rw [List.mem_cons, hmem]
      constructor
      · rintro (rfl | ⟨hlt, hk⟩)
        · exact ⟨by omega, hbinRun⟩
        · exact ⟨by omega, by rwa [hne k hlt]⟩
      · rintro ⟨hlt, hk⟩
        by_cases hkr : k = run
        · exact Or.inl hkr
        · have hlt' : k < w.nVheaders := by omega
          exact Or.inr ⟨hlt', by rwa [← hne k hlt']⟩
  · rw [hH, Function.update_self]
    refine slotsPerRun_pos (by omega) ?_
    simp only [sclassSmallMax, blockSize]
    omega

/-! ## Taking a slot -/

/-- Changing one VHeader without touching its identity. -/
theorem RunsInv.updateRun (h : RunsInv L w) {k : ℕ} {x : ArenaRun} {w' : World}
    (hnvm : w'.nvm = w.nvm) (hH : w'.vheaders = Function.update w.vheaders k x)
    (hn : w'.nVheaders = w.nVheaders) (hrun : x.nvmRun = (w.vheaders k).nvmRun)
    (helem : x.elemSize = (w.vheaders k).elemSize) (hbin : x.bin = (w.vheaders k).bin)
    (hmax : x.nMax = (w.vheaders k).nMax) : RunsInv L w' where
  run {q j} hq := by
    obtain ⟨hlt, hof⟩ := h.run hq
    refine ⟨hn ▸ hlt, hof.congr (by rw [hnvm]; exact EqOn.refl _ _ _) ?_ ?_ ?_ ?_⟩
    all_goals
      rw [hH]
      by_cases hjk : j = k
      · subst hjk
        rw [Function.update_self]
        assumption
      · rw [Function.update_of_ne hjk]
  tile j hj := h.tile j (hn ▸ hj)

/-- A free slot goes to the client. -/
theorem HeapInv.giveSlot (h : HeapInv L w live) {k i req f : ℕ} {x : ArenaRun}
    (hp : L p = some (.run k)) (helem : (w.vheaders k).elemSize = roundUp req 64) (hreq : 1 ≤ req)
    (hsmall : req ≤ sclassSmallMax) (hi : i < slotsPerRun (w.vheaders k).elemSize)
    (hfree : (w.vheaders k).bitmap i = false)
    (hx : x = { w.vheaders k with
      bitmap := Function.update (w.vheaders k).bitmap i true, nFree := f }) :
    HeapInv L { w with vheaders := Function.update w.vheaders k x }
      (⟨4096 * p + 64 + (w.vheaders k).elemSize * i, req, false⟩ :: live) := by
  have hxelem : x.elemSize = (w.vheaders k).elemSize := by rw [hx]
  have hxbit : x.bitmap = Function.update (w.vheaders k).bitmap i true := by rw [hx]
  have helems : ∀ j, (Function.update w.vheaders k x j).elemSize = (w.vheaders j).elemSize := by
    intro j
    by_cases hjk : j = k
    · rw [hjk, Function.update_self, hxelem]
    · rw [Function.update_of_ne hjk]
  -- the VHeader keeps the bits it has
  have hbits : ∀ j i', (w.vheaders j).bitmap i' = true →
      (Function.update w.vheaders k x j).bitmap i' = true := by
    intro j i' hbit
    by_cases hjk : j = k
    · subst hjk
      rw [Function.update_self, hxbit]
      by_cases hii : i' = i
      · rw [hii, Function.update_self]
      · rwa [Function.update_of_ne hii]
    · rwa [Function.update_of_ne hjk]
  have hnvm : bitmapBit w.nvm.mem (4096 * p) i = false := by
    by_contra hset
    have hslots := h.slots_le hp
    have hi64 : i < 64 := by omega
    have hset' := (h.live.nvmBit hp hi64 (by simpa using hset)).2
    rw [hfree] at hset'
    exact absurd hset' (by simp)
  have helem64 : 64 ≤ (w.vheaders k).elemSize := by
    rw [helem, roundUp_64]
    omega
  refine ⟨h.nvm, ?_, ?_, ?_⟩
  · exact h.pool.congr (fun _ _ _ => Iff.rfl) (fun _ _ _ => Iff.rfl) (fun _ => rfl) rfl
  · exact h.runs.updateRun rfl rfl rfl (by rw [hx]) hxelem (by rw [hx]) (by rw [hx])
  · refine ⟨?_, ?_, ?_, ?_, ?_, ?_, ?_⟩
    · rw [List.map_cons, List.nodup_cons]
      refine ⟨fun hmem => ?_, h.live.nodup⟩
      obtain ⟨r, hr, hptr⟩ := List.mem_map.mp hmem
      obtain ⟨-, -, hbit, -⟩ := h.region_of_slot hr hp hi hptr
      exact absurd (hfree.symm.trans hbit) (by simp)
    · intro r hr
      rcases List.mem_cons.mp hr with rfl | hr
      · exact ⟨hreq, hsmall.trans (by decide)⟩
      · exact h.live.size r hr
    · intro r hr
      rcases List.mem_cons.mp hr with rfl | hr
      · refine .small hsmall hp (by rw [helems, helem]) (by rw [helems]; exact hi)
          (by rw [helems]) ?_ hnvm
        simp only [Function.update_self, hxbit]
      · exact (h.live.placed r hr).congr (fun _ _ => id) (fun _ _ _ => id) (fun _ _ _ => id)
          (fun _ _ _ _ _ => rfl) (fun _ j _ => helems j) (fun _ j i' _ => hbits j i')
    · intro q n b hq
      obtain ⟨r, hr, hptr⟩ := h.live.block hq
      exact ⟨r, List.mem_cons_of_mem _ hr, hptr⟩
    · intro q n b hq
      obtain ⟨r, hr, hptr⟩ := h.live.huge hq
      exact ⟨r, List.mem_cons_of_mem _ hr, hptr⟩
    · intro q j i' hq hi' hbit
      rw [helems] at hi' ⊢
      change (Function.update w.vheaders k x j).bitmap i' = true at hbit
      by_cases hold : (w.vheaders j).bitmap i' = true
      · obtain ⟨r, hr, hptr⟩ := h.live.slot hq hi' hold
        exact ⟨r, List.mem_cons_of_mem _ hr, hptr⟩
      · obtain ⟨rfl, rfl⟩ : j = k ∧ i' = i := by
          by_contra hne
          refine hold ?_
          by_cases hjk : j = k
          · subst hjk
            rwa [Function.update_self, hxbit, Function.update_of_ne fun hi => hne ⟨rfl, hi⟩] at hbit
          · rwa [Function.update_of_ne hjk] at hbit
        have hqp : q = p := by
          have hq' := (h.runs.run hq).2.nvmRun
          rw [(h.runs.run hp).2.nvmRun] at hq'
          omega
        exact ⟨_, List.mem_cons_self, by rw [hqp]⟩
    · intro q j i' hq hi' hbit
      obtain ⟨hlt, hset⟩ := h.live.nvmBit hq hi' hbit
      exact ⟨by rwa [helems], hbits j i' hset⟩

/-- The element size of the runs of a bin. -/
theorem HeapInv.elemSize_of_bin (h : HeapInv L w live) {k a b : ℕ} (hp : L p = some (.run k))
    (hbin : (w.vheaders k).bin = (a, b)) : (w.vheaders k).elemSize = 64 * (b + 1) := by
  obtain ⟨c, -, helem⟩ := h.elemSize_runSize hp
  have hof := (h.runs.run hp).2.bin
  rw [hbin, Prod.mk.injEq] at hof
  omega

/-- The section of `arena_allocate` that takes a slot of the current run. -/
theorem ProcInv.takeSlot (h : ProcInv L w live) {a b run req : ℕ} (hreq : 1 ≤ req)
    (hsmall : req ≤ sclassSmallMax) (hsize : roundUp req 64 = 64 * (b + 1))
    (hcur : (w.bin (a, b)).currentRun = some run) (hfree : 0 < (w.vheaders run).nFree) :
    ∃ i, (takeSlot w.vheaders (w.bin (a, b)) run (64 * (b + 1))).1 = some i ∧
      ProcInv L
        ({ w with
          vheaders := (takeSlot w.vheaders (w.bin (a, b)) run (64 * (b + 1))).2.1 }.setBin (a, b)
          (takeSlot w.vheaders (w.bin (a, b)) run (64 * (b + 1))).2.2)
        (⟨(w.vheaders run).nvmRun + 64 + 64 * (b + 1) * i, req, false⟩ :: live) := by
  obtain ⟨R, hR, hmem⟩ := h.bins (a, b)
  obtain ⟨i, hi, hbit, htake, hinv⟩ := hR.takeSlot_spec (by simp only; omega) hcur hfree
  obtain ⟨hlt, hbin⟩ := (hmem run).mp (hR.cur run hcur)
  obtain ⟨p, hp⟩ := h.runs.tile run hlt
  have helem := h.elemSize_of_bin hp hbin
  simp only at htake hinv hi
  rw [htake] at hinv ⊢
  refine ⟨i, rfl, ?_, h.owned, ?_, h.version⟩
  · have hgive := h.giveSlot (f := (w.vheaders run).nFree - 1) hp (helem.trans hsize.symm) hreq hsmall
      (helem ▸ hi) hbit rfl
    rw [helem, ← (h.runs.run hp).2.nvmRun] at hgive
    exact hgive.setBin _ _
  · rw [setBin_bin, setBin_vheaders, setBin_nVheaders]
    have hbins : ∀ k, (Function.update w.vheaders run { w.vheaders run with
        bitmap := Function.update (w.vheaders run).bitmap i true
        nFree := (w.vheaders run).nFree - 1 } k).bin = (w.vheaders k).bin := by
      intro k
      by_cases hk : k = run
      · rw [hk, Function.update_self]
      · rw [Function.update_of_ne hk]
    refine h.bins.set (fun k => by simp only [hbins]) (fun k _ hk => ?_) ⟨R, hinv, fun k => ?_⟩
    · exact Function.update_of_ne (fun hkr => hk (by rw [hkr]; exact hbin)) ..
    · simp only [hbins, hmem]

/-! ## `arena_allocate` and `nvm_reserve` -/

/-- A reservation that adds no chunk to an arena other than arena 0. -/
def KeepsArenas (w : World) (a nBytes : ℕ) : Prop :=
  nBytes ≤ sclassLargeMax → Grows w a nBytes → a = 0

/-- The new region of a reservation. -/
def Reserved (L : Layout) (w : World) (live : List Region) (a nBytes : ℕ) (res : Option ℕ)
    (w' : World) : Prop :=
  ∃ L' ptr, res = some ptr ∧ ProcInv L' w' (⟨ptr, nBytes, false⟩ :: live) ∧ Untouched w w' ∧
    Evolves (KeepsArenas w a nBytes) L w.nvm.mem L' w'.nvm.mem

/-- A request of at most half a page goes to the bin of its rounded size. -/
theorem roundUp_small {n : ℕ} (hn : 1 ≤ n) (hsmall : n ≤ sclassSmallMax) :
    ∃ b < 31, roundUp n 64 = 64 * (b + 1) := by
  simp only [sclassSmallMax, blockSize] at hsmall
  refine ⟨(n + 63) / 64 - 1, by omega, ?_⟩
  rw [roundUp_64]
  omega

/-- The run a small request is served from has a free slot. -/
theorem arenaSelectRun_spec (h : ProcInv L w live) {a b : ℕ} (ha : a < initialArenas) (hb : b < 31)
    (hgrow : (w.bin (a, b)).nFree = 0 → blockUpperBound 1 (w.arenas a).freePageruns = none → B.grow)
    (hconv : (w.bin (a, b)).nFree = 0 → ∀ x, blockUpperBound 1 (w.arenas a).freePageruns = some x →
      x.nPages = 1 → B.Converts w.nvm (x.nvmBlock + headerSize)) :
    Spec (arenaSelectRun a b (64 * (b + 1))) (CrashOk B live)
      (fun run w' => ∃ L', ProcInv L' w' live ∧ (w'.bin (a, b)).currentRun = some run ∧
        0 < (w'.vheaders run).nFree ∧ Untouched w w' ∧
        Evolves ((w.bin (a, b)).nFree = 0 → blockUpperBound 1 (w.arenas a).freePageruns = none → a = 0)
          L w.nvm.mem L' w'.nvm.mem)
      (fun e => e = .exit) w := by
  unfold arenaSelectRun
  rw [spec_bind, spec_get, spec_ite]
  refine ⟨fun hempty => ?_, fun hpos => ?_⟩
  · refine (arenaCreateRun_spec h.toHeapInv hb rfl ha h.version (hgrow hempty) (hconv hempty)).bind ?_
    intro run w' hmade
    obtain ⟨L', hinv, hfree, hevolves⟩ := h.addRun hb rfl hempty hmade
    obtain ⟨-, -, -, -, -, huntouched, -⟩ := hmade
    rw [spec_bind, spec_modify, spec_pure]
    refine ⟨L', hinv, ?_, hfree, huntouched.trans ⟨rfl, rfl, rfl, fun _ _ => EqOn.refl _ _ _⟩,
      hevolves.imp fun hzero => hzero hempty⟩
    rw [setBin_bin, Function.update_self]
    rfl
  · obtain ⟨R, hR, hmem⟩ := h.bins (a, b)
    obtain ⟨run, b', hsel, hrun, hfree, hcur, hinv⟩ := hR.selectRun_spec (Nat.pos_of_ne_zero hpos)
    rw [hsel]
    simp only [spec_bind, spec_modify, spec_pure]
    refine ⟨L, ⟨h.setBin _ _, h.owned, ?_, h.version⟩, ?_, hfree,
      ⟨rfl, rfl, rfl, fun _ _ => EqOn.refl _ _ _⟩, .refl _ _ _⟩
    · rw [setBin_bin]
      exact h.bins.set (fun _ => Iff.rfl) (fun _ _ _ => rfl) ⟨R, hinv, hmem⟩
    · rw [setBin_bin, Function.update_self, hcur]

/-- `arena_allocate` hands the client a region of the requested size. -/
theorem arenaAllocate_spec (h : ProcInv L w live) {a nBytes : ℕ} (ha : a < initialArenas)
    (hn : 1 ≤ nBytes) (hlarge : nBytes ≤ sclassLargeMax) (hgrow : Grows w a nBytes → B.grow)
    (hconv : ∀ x, ConvertsPage w a nBytes x → B.Converts w.nvm (x.nvmBlock + headerSize)) :
    Spec (arenaAllocate a nBytes) (CrashOk B live) (Reserved L w live a nBytes) (fun e => e = .exit)
      w := by
  unfold arenaAllocate
  rw [spec_bind, spec_assertThat]
  refine ⟨fun _ => ?_, fun hnot => absurd hlarge hnot⟩
  rw [spec_ite]
  refine ⟨fun hsmall => ?_, fun hbig => ?_⟩
  · obtain ⟨b, hb, hsize⟩ := roundUp_small hn hsmall
    have hidx : 64 * (b + 1) / 64 - 1 = b := by omega
    simp only [hsize, hidx]
    rw [if_neg (by omega)]
    simp only [Grows, if_pos hsmall, hsize, hidx] at hgrow
    simp only [ConvertsPage, hsize, hidx] at hconv
    refine (arenaSelectRun_spec h ha hb (fun hempty hub => hgrow ⟨hempty, hub⟩)
      fun hempty x hub hx => hconv x ⟨hsmall, hempty, hub, hx⟩).bind ?_
    rintro run w' ⟨L', hinv, hcur, hfree, huntouched, hevolves⟩
    obtain ⟨i, hslot, htake⟩ := hinv.takeSlot hn hsmall hsize hcur hfree
    simp only [spec_bind, spec_get, spec_modify, spec_pure, hslot]
    refine ⟨L', _, rfl, htake, huntouched.trans ⟨rfl, rfl, rfl, fun _ _ => EqOn.refl _ _ _⟩,
      hevolves.imp fun hkeeps hempty hub => hkeeps hlarge ?_⟩
    simp only [Grows, if_pos hsmall, hsize, hidx]
    exact ⟨hempty, hub⟩
  · have hpages : roundUp nBytes blockSize / blockSize = (nBytes + 4095) / 4096 := by
      rw [roundUp_blockSize]
      exact Nat.mul_div_cancel_left _ (by decide)
    have hmax : nBytes ≤ 2097088 := hlarge
    simp only [Grows, if_neg hbig, if_pos hlarge] at hgrow
    refine (arenaCreateBlock_spec h.toHeapInv ha (by omega) (by omega) hgrow).bind ?_
    rintro x w' ⟨L', q, rfl, hq, hinv, hsame, howned, hevolves⟩
    rw [spec_pure]
    have hgive : Evolves True L' w'.nvm.mem
        (L'.set q (.block (roundUp nBytes blockSize / blockSize) (.user false))) w'.nvm.mem :=
      .set hinv.nvm.ok hq .block (EqOff.refl _ _ _) fun _ ht => ht.block rfl (by simp)
    refine ⟨_, _, rfl, h.of_poolOnly (hinv.giveBlock hq (by omega) hlarge rfl)
      ((howned h.owned).set trivial) hsame, hsame.toUntouched, ?_⟩
    refine (hevolves.imp fun hkeeps hub => hkeeps hlarge ?_).trans (fun _ _ => trivial) hgive
    simp only [Grows, if_neg hbig, if_pos hlarge]
    exact hub

/-- **`nvm_reserve`**: every crash inside it keeps the active regions, and it returns a new region of the
requested size unless the heap is exhausted. -/
theorem nvmReserve_spec (h : ProcInv L w live) {a nBytes : ℕ} (ha : a < initialArenas)
    (hn : 1 ≤ nBytes) (hmax : nBytes ≤ maxNvmSpace) (hgrow : Grows w a nBytes → B.grow)
    (hconv : ∀ x, ConvertsPage w a nBytes x → B.Converts w.nvm (x.nvmBlock + headerSize)) :
    Spec (nvmReserve a nBytes) (CrashOk B live) (Reserved L w live a nBytes) (fun e => e = .exit) w := by
  unfold nvmReserve
  rw [spec_ite]
  refine ⟨fun hlarge => arenaAllocate_spec h ha hn hlarge hgrow hconv, fun hhuge => ?_⟩
  have hchunks := chunksFor_eq hmax
  have hmax' : nBytes ≤ 107374182400 := hmax
  have hsmall : ¬ nBytes ≤ sclassSmallMax := by
    simp only [sclassLargeMax, sclassSmallMax, chunkSize, blockSize] at hhuge ⊢
    omega
  have hk : chunksFor nBytes < 2 ^ 32 := by omega
  simp only [Grows, if_neg hsmall, if_neg hhuge, Nat.mod_eq_of_lt hk] at hgrow
  refine (nvmReserveChunks_spec h.toHeapInv (by omega) hk hgrow).bind ?_
  rintro x w' ⟨L', q, rfl, hq, hinv, hsame, howned, hevolves⟩
  rw [spec_pure]
  have hgive : Evolves True L' w'.nvm.mem (L'.set q (.huge (chunksFor nBytes) (.user false)))
      w'.nvm.mem :=
    .set hinv.nvm.ok hq .huge (EqOff.refl _ _ _) fun _ _ => trivial
  exact ⟨_, _, rfl, h.of_poolOnly (hinv.giveHuge hq (by omega) hmax rfl)
    ((howned h.owned).set trivial) hsame, hsame.toUntouched,
    (hevolves.imp fun _ => trivial).trans (fun _ _ => trivial) hgive⟩

end NvmMalloc
