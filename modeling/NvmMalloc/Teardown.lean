import Mathlib.Data.List.ProdSigma
import NvmMalloc.Reachability

/-!
# The VHeaders at the end of a process

Reference: `src/nvm_malloc.c` (`nvm_teardown`), `src/arena.c` (`arena_teardown`).

`arena_teardown` frees the VHeaders that a bin can reach: its current run and the list `runs`.  A
run that filled up and is no longer the current one is in neither, until one of its slots is freed. 
The memory of the VHeaders is modelled by the set of those that are allocated; `free` of anything
else, and a read of `next` there, is a fault.
-/

namespace NvmMalloc

/-! ## The loops -/

/-- `free (run)` -/
def freeRun (alloc : Finset ℕ) (run : ℕ) : Option (Finset ℕ) :=
  if run ∈ alloc then some (alloc.erase run) else none

/-- The loop over `bin->runs`.  It reads `next` of a run before it frees it. -/
def freeRuns (H : ℕ → ArenaRun) : ℕ → Option ℕ → Finset ℕ → Option (Finset ℕ)
  | 0, _, _ => none
  | _ + 1, none, alloc => some alloc
  | fuel + 1, some run, alloc => (freeRun alloc run).bind (freeRuns H fuel (H run).next)

/-- The body of the loop of `arena_teardown` over the bins. -/
def teardownBin (H : ℕ → ArenaRun) (fuel : ℕ) (b : ArenaBin) (alloc : Finset ℕ) : Option (Finset ℕ) :=
  match b.currentRun with
  | none => freeRuns H fuel b.runs alloc
  | some run => (freeRun alloc run).bind (freeRuns H fuel b.runs)

/-- The bins of the arenas, in the order in which `nvm_teardown` comes to them. -/
def allBins : List (ℕ × ℕ) := (List.range initialArenas).product (List.range 31)

/-- `arena_teardown` for every arena, as far as the run headers go. -/
def teardownBins (w : World) (fuel : ℕ) : List (ℕ × ℕ) → Finset ℕ → Option (Finset ℕ)
  | [], alloc => some alloc
  | ab :: bins, alloc => (teardownBin w.vheaders fuel (w.bin ab) alloc).bind (teardownBins w fuel bins)

/-! ## What they free -/

/-- The bin of `run` leads to it. -/
def World.Reaches (w : World) (run : ℕ) : Prop :=
  (w.bin (w.vheaders run).bin).currentRun = some run ∨ 0 < (w.vheaders run).nFree

instance (w : World) (run : ℕ) : Decidable (w.Reaches run) := inferInstanceAs (Decidable (_ ∨ _))

section

variable {H : ℕ → ArenaRun} {w : World} {fuel : ℕ} {alloc : Finset ℕ} {l : List ℕ}

/-- The list is freed, each run once. -/
theorem freeRuns_eq {s : Option ℕ} (hlinked : Linked (fun run => (H run).next) s l)
    (hl : ∀ run ∈ l, run ∈ alloc) (hfuel : l.length < fuel) :
    freeRuns H fuel s alloc = some (alloc.filter (· ∉ l)) := by
  induction l generalizing s alloc fuel with
  | nil =>
    obtain rfl := hlinked
    obtain ⟨fuel, rfl⟩ : ∃ f, fuel = f + 1 := ⟨fuel - 1, by simp at hfuel; omega⟩
    simp [freeRuns]
  | cons run l ih =>
    obtain ⟨rfl, hrest⟩ := hlinked
    rw [List.length_cons] at hfuel
    obtain ⟨fuel, rfl⟩ : ∃ f, fuel = f + 1 := ⟨fuel - 1, by omega⟩
    have hnodup : run ∉ l := (List.nodup_cons.mp (Linked.nodup (l := run :: l) ⟨rfl, hrest⟩)).1
    rw [freeRuns, freeRun, if_pos (hl run List.mem_cons_self), Option.bind_some, ih hrest ?_ (by omega)]
    · congr 1
      ext k
      simp only [Finset.mem_filter, Finset.mem_erase, List.mem_cons]
      tauto
    · intro k hk
      exact Finset.mem_erase.mpr ⟨fun h => hnodup (h ▸ hk), hl k (List.mem_cons_of_mem _ hk)⟩

/-- A bin frees the runs it leads to. -/
theorem teardownBin_eq {nBytes : ℕ} {b : ArenaBin} {R : List ℕ} (h : BinInv nBytes H b R)
    (hR : ∀ run ∈ R, run ∈ alloc) (hfuel : R.length < fuel) :
    teardownBin H fuel b alloc =
      some (alloc.filter fun run => ¬ (run ∈ R ∧ (b.currentRun = some run ∨ 0 < (H run).nFree))) := by
  obtain ⟨l, hlinked, hl⟩ := h.list
  have hlen : l.length < fuel :=
    lt_of_le_of_lt (hlinked.nodup.length_le_of_subset fun k hk => ((hl k).mp hk).1) hfuel
  unfold teardownBin
  cases hcur : b.currentRun with
  | none =>
    simp only
    rw [freeRuns_eq hlinked (fun k hk => hR k ((hl k).mp hk).1) hlen]
    congr 1
    ext k
    simp only [Finset.mem_filter, hl, hcur]
    tauto
  | some run =>
    have hrun := h.cur run hcur
    simp only
    rw [freeRun, if_pos (hR run hrun), Option.bind_some, freeRuns_eq hlinked ?_ hlen]
    · congr 1
      ext k
      simp only [Finset.mem_filter, Finset.mem_erase, hl, hcur, Option.some.injEq]
      by_cases hk : k = run
      · simp [hk, hrun]
      · have hne : run ≠ k := Ne.symm hk
        grind
    · intro k hk
      obtain ⟨hkR, -, hne⟩ := (hl k).mp hk
      exact Finset.mem_erase.mpr ⟨fun heq => hne (heq ▸ hcur), hR k hkR⟩

/-- The runs of a bin are disjoint from those of the bins before it. -/
theorem teardownBins_eq {bins : List (ℕ × ℕ)} (h : BinsInv w.vheaders w.bin w.nVheaders)
    (hnodup : bins.Nodup) (hfuel : w.nVheaders < fuel)
    (halloc : ∀ run < w.nVheaders, (w.vheaders run).bin ∈ bins → run ∈ alloc) :
    teardownBins w fuel bins alloc = some (alloc.filter fun run =>
      ¬ (run < w.nVheaders ∧ (w.vheaders run).bin ∈ bins ∧ w.Reaches run)) := by
  induction bins generalizing alloc with
  | nil => simp [teardownBins]
  | cons ab bins ih =>
    obtain ⟨hab, hnodup⟩ := List.nodup_cons.mp hnodup
    obtain ⟨R, hbin, hR⟩ := h ab
    have hlen : R.length < fuel := by
      refine lt_of_le_of_lt ?_ hfuel
      simpa using hbin.nodup.length_le_of_subset fun k hk => List.mem_range.mpr ((hR k).mp hk).1
    rw [teardownBins, teardownBin_eq hbin (fun k hk => ?_) hlen, Option.bind_some, ih hnodup]
    · congr 1
      ext k
      simp only [Finset.mem_filter, hR, List.mem_cons, World.Reaches]
      grind
    · intro k hk hkbin
      refine Finset.mem_filter.mpr ⟨halloc k hk (List.mem_cons_of_mem _ hkbin), fun hcontra => hab ?_⟩
      rwa [← ((hR k).mp hcontra.1).2]
    · obtain ⟨hk, hkbin⟩ := (hR k).mp hk
      exact halloc k hk (hkbin ▸ List.mem_cons_self)

end

/-- Every VHeader belongs to a bin of an arena. -/
theorem HeapInv.bin_mem {L : Layout} {w : World} {live : List Region} (h : HeapInv L w live) {run : ℕ}
    (hrun : run < w.nVheaders) : (w.vheaders run).bin ∈ allBins := by
  obtain ⟨p, hp⟩ := h.runs.tile run hrun
  obtain ⟨-, hof⟩ := h.runs.run hp
  obtain ⟨⟨⟨c, hc, hsize⟩, harena⟩, -⟩ := h.nvm.quiet hp
  rw [hof.bin, hof.elemSize, hsize]
  exact List.pair_mem_product.mpr ⟨List.mem_range.mpr harena, List.mem_range.mpr (by omega)⟩

/-- **The end of a process frees no VHeader twice, and leaks those of the full runs that are not the
current ones of their bins.**  All others are freed. -/
theorem teardown_leaks_full_runs {P : Process} {s : Sys} (hs : Reachable P s) {fuel : ℕ}
    (hfuel : s.w.nVheaders < fuel) :
    ∃ left, teardownBins s.w fuel allBins (Finset.range s.w.nVheaders) = some left ∧
      ∀ run, run ∈ left ↔ run < s.w.nVheaders ∧ (s.w.vheaders run).nFree = 0 ∧
        (s.w.bin (s.w.vheaders run).bin).currentRun ≠ some run := by
  obtain ⟨L, h, -, -⟩ := sysInv_of_reachable hs
  have hnodup : allBins.Nodup := List.nodup_range.product List.nodup_range
  refine ⟨_, teardownBins_eq h.bins hnodup hfuel fun k hk _ => Finset.mem_range.mpr hk, fun k => ?_⟩
  have hbin : k < s.w.nVheaders → (s.w.vheaders k).bin ∈ allBins := h.bin_mem
  simp only [World.Reaches]
  grind

/-- Three regions of the largest small size: the first run, with two of them, is full and not current. -/
theorem teardown_leaks_full_runs_three : ∃ s, Reachable sampleProcess s ∧ s.w.nVheaders = 2 ∧
    ∃ left, teardownBins s.w 3 allBins (Finset.range s.w.nVheaders) = some left ∧ 0 ∈ left ∧
    1 ∉ left := by
  have hany : ((sampleHistory [.reserve 0 1984, .reserve 0 1984, .reserve 0 1984]).any
      fun s => decide (s.w.nVheaders = 2 ∧ (s.w.vheaders 0).nFree = 0 ∧ (s.w.vheaders 1).nFree = 1 ∧
        (s.w.bin (s.w.vheaders 0).bin).currentRun ≠ some 0)) = true := by
    decide +kernel
  obtain ⟨s, hs, htest⟩ := Process.exists_reachable hany
  obtain ⟨hn, hfull, hfree, hcur⟩ := of_decide_eq_true htest
  obtain ⟨left, heq, hleft⟩ := @teardown_leaks_full_runs _ s hs 3 (by omega)
  refine ⟨s, hs, hn, left, heq, (hleft 0).mpr ⟨by omega, hfull, hcur⟩, fun h1 => ?_⟩
  have := ((hleft 1).mp h1).2.1
  omega

end NvmMalloc
