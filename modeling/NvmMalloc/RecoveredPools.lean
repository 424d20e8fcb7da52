import NvmMalloc.RecoveredHeap
import Mathlib.Data.List.Perm.Basic

/-!
# The free pools after recovery

Reference: `src/nvm_malloc.c` (`nvm_initialize_recovered`, `nvm_recovery_thread`).

Two passes fill the trees of free page runs: the log loop inserts the block whose free it completes,
and the recovery thread inserts every free block it meets, that one included.  Only the log loop
inserts into `free_chunks`.
-/

namespace NvmMalloc

open Memory CrashM

/-! ## Nodes and free headers -/

/-- The nodes of the trees of free page runs of all arenas. -/
def allPageruns (w : World) : List ArenaBlock :=
  (List.range initialArenas).flatMap fun a => (w.arenas a).freePageruns.toList

/-- The page run that starts on page `p`, as its header describes it. -/
def headerBlock (m : Mem) (p : ℕ) : ArenaBlock :=
  ⟨4096 * p, field m (4096 * p) nPagesF, field m (4096 * p) blockArenaIdF⟩

/-- The page runs with a free header that the page walks meet. -/
def freeHeaders (nvm : Nvm) : List ArenaBlock :=
  (((arenaChunks nvm).flatMap (pageHeaders nvm.mem)).filter fun p =>
    usageAt nvm.mem p = usageFree).map (headerBlock nvm.mem)

/-- The trees hold every page run with a free header exactly once, and nothing else. -/
def PagePoolExact (w : World) : Prop := (allPageruns w).Perm (freeHeaders w.nvm)

/-- A log entry names a block that is being freed. -/
def FreesLoggedBlock (img : Nvm) : Prop :=
  ∃ p, NamedBefore img maxLogEntries p ∧ field img.mem (4096 * p) stateF = usageBlock + stateFreeing

/-- Sorting a list into classes and joining them again permutes it. -/
theorem perm_flatMap_classes {α : Type} (key : α → ℕ) (xs : List α) (n : ℕ) :
    ((List.range n).flatMap fun a => xs.filter fun x => key x = a).Perm
      (xs.filter fun x => key x < n) := by
  induction n with
  | zero => simp
  | succ n ih =>
    have hlt : (xs.filter fun x => key x < n + 1).filter (fun x => key x < n) =
        xs.filter fun x => key x < n := by
      rw [List.filter_filter]
      refine List.filter_congr fun x _ => ?_
      rw [← Bool.decide_and]
      exact decide_eq_decide.mpr ⟨fun h => h.1, fun h => ⟨h, by omega⟩⟩
    have heq : (xs.filter fun x => key x < n + 1).filter (fun x => !decide (key x < n)) =
        xs.filter fun x => key x = n := by
      rw [List.filter_filter]
      refine List.filter_congr fun x _ => ?_
      rw [← decide_not, ← Bool.decide_and]
      exact decide_eq_decide.mpr ⟨fun h => by omega, fun h => ⟨by omega, by omega⟩⟩
    have hsplit := List.filter_append_perm (fun x => decide (key x < n))
      (xs.filter fun x => key x < n + 1)
    rw [hlt, heq] at hsplit
    rw [List.range_succ, List.flatMap_append, List.flatMap_cons, List.flatMap_nil, List.append_nil]
    exact (ih.append_right _).trans hsplit

/-- Some elements of a list, mapped. -/
theorem flatMap_ite_singleton {α β : Type} (q : α → Prop) [DecidablePred q] (f : α → β) (xs : List α) :
    (xs.flatMap fun x => if q x then [f x] else []) = (xs.filter fun x => q x).map f := by
  induction xs with
  | nil => rfl
  | cons x xs ih =>
    rw [List.flatMap_cons, ih, List.filter_cons]
    by_cases hx : q x <;> simp [hx]

section

variable {P : Process} {L : Layout} {p₀ n : ℕ} {img nvm : Nvm} {w₀ w : World}

/-- The page walks meet the pages of the layout behind the chunk headers. -/
theorem perm_pagesBelow (h : Aligned L nvm.mem nvm.nextChunk) :
    ((arenaChunks nvm).flatMap (pageHeaders nvm.mem)).Perm (pagesBelow L (1024 * nvm.nextChunk)) := by
  obtain ⟨hsorted, harena⟩ := h.arenaChunks
  refine (List.perm_ext_iff_of_nodup ?_ nodup_pagesBelow).mpr fun p => ?_
  · rw [List.nodup_flatMap]
    refine ⟨fun c hc => ((h.pageHeaders ((harena c).mp hc)).1).imp fun hlt => hlt.ne, ?_⟩
    refine hsorted.imp_of_mem fun {c d} hc hd hlt => ?_
    intro p hp hp'
    have h1 := (((h.pageHeaders ((harena c).mp hc)).2 p).mp hp).1
    have h2 := (((h.pageHeaders ((harena d).mp hd)).2 p).mp hp').1
    omega
  · rw [List.mem_flatMap, mem_pagesBelow]
    constructor
    · rintro ⟨c, hc, hp⟩
      obtain ⟨hin, hsome⟩ := ((h.pageHeaders ((harena c).mp hc)).2 p).mp hp
      obtain ⟨t, ht⟩ := Option.isSome_iff_exists.mp hsome
      have hend := h.ok.add_len_le ht
      have hpos := h.ok.len_pos ht
      exact ⟨by omega, by omega, hsome⟩
    · rintro ⟨hlt, hmod, hsome⟩
      obtain ⟨t, ht⟩ := Option.isSome_iff_exists.mp hsome
      have hc := h.arena_of_page ht hmod
      exact ⟨p / 1024, (harena _).mpr hc, ((h.pageHeaders hc).2 p).mpr ⟨⟨by omega, by omega⟩, hsome⟩⟩

namespace Recovered

/-- The nodes that the thread inserts are the free headers it leaves behind. -/
theorem scannedNodes_perm (h : Recovered P L p₀ img w₀ w) :
    ((pagesBelow L (1024 * img.nextChunk)).flatMap (scannedNodes w₀.nvm.mem)).Perm
      (freeHeaders w.nvm) := by
  have haligned := h.aligned
  have hchunks : w.nvm.nextChunk = img.nextChunk := by
    rw [h.scan.nvm]
    exact h.log.nextChunk
  have husage : ∀ p, usageAt w.nvm.mem p = usageAt w₀.nvm.mem p := fun p => by
    unfold usageAt
    rw [h.scan.field_eq (by decide)]
  have hnode : ∀ p ∈ pagesBelow L (1024 * img.nextChunk), scannedNodes w₀.nvm.mem p =
      if usageAt w.nvm.mem p = usageFree then [headerBlock w.nvm.mem p] else [] := by
    intro p hp
    obtain ⟨-, hmod, hsome⟩ := mem_pagesBelow.mp hp
    obtain ⟨t, ht⟩ := Option.isSome_iff_exists.mp hsome
    unfold scannedNodes
    rw [husage]
    split
    · rename_i hfree
      obtain ⟨n, o, rfl⟩ := block_of_free haligned ht hmod ((husage p).trans hfree)
      have hfits := h.inv.ok.fits ht
      simp only [Tile.Fits] at hfits
      have hn := (haligned.hdr ht).1
      unfold blockNode headerBlock
      rw [← h.scan.field_eq (f := nPagesF) (by decide),
        ← h.scan.field_eq (f := blockArenaIdF) (by decide),
        hn, Nat.mod_eq_of_lt (by omega)]
    · rfl
  have heq : (pagesBelow L (1024 * img.nextChunk)).flatMap (scannedNodes w₀.nvm.mem) =
      ((pagesBelow L (1024 * img.nextChunk)).filter fun p => usageAt w.nvm.mem p = usageFree).map
        (headerBlock w.nvm.mem) := by
    rw [List.flatMap_congr hnode, flatMap_ite_singleton]
  rw [heq]
  refine List.Perm.map _ (List.Perm.filter _ ?_)
  rw [← hchunks]
  exact (perm_pagesBelow haligned).symm

/-- The nodes of all trees: the free headers, and what the log loop has inserted before. -/
theorem allPageruns_perm (h : Recovered P L p₀ img w₀ w) : (allPageruns w).Perm
    (freeHeaders w.nvm ++ (redoneBefore L p₀ P.nvmStart img maxLogEntries).pages) := by
  let nodes := (pagesBelow L (1024 * img.nextChunk)).flatMap (scannedNodes w₀.nvm.mem) ++
    (redoneBefore L p₀ P.nvmStart img maxLogEntries).pages
  have htrees : ∀ a, (w.arenas a).freePageruns.toList.Perm (nodes.filter fun x => x.arena = a) := by
    intro a
    rw [List.filter_append]
    exact (h.scan.pages a).trans ((h.log.pages a).append_left _)
  have harena : ∀ x ∈ nodes, x.arena < initialArenas := by
    intro x hx
    rcases List.mem_append.mp hx with hx | hx
    · rw [h.scannedNodes_perm.mem_iff] at hx
      obtain ⟨p, hp, rfl⟩ := List.mem_map.mp hx
      rw [List.mem_filter, decide_eq_true_eq, (perm_pagesBelow h.aligned).mem_iff, mem_pagesBelow] at hp
      obtain ⟨⟨-, hmod, hsome⟩, hfree⟩ := hp
      obtain ⟨t, ht⟩ := Option.isSome_iff_exists.mp hsome
      obtain ⟨n, o, rfl⟩ := block_of_free h.aligned ht hmod hfree
      exact (h.aligned.hdr ht).2.1
    · obtain ⟨p, hnamed, hst, rfl⟩ := h.inv.redone_pages.mp hx
      obtain ⟨t, ht⟩ := h.inv.tile_of_named hnamed
      have hhdr := h.inv.hdr ht
      obtain ⟨n, o, rfl⟩ := (hhdr.kind fun k hk => h.unstuck p k (hk ▸ ht)).1
        (by rw [usageAt, hst]; decide)
      exact hhdr.2.1
  have hall : nodes.filter (fun x => x.arena < initialArenas) = nodes :=
    List.filter_eq_self.mpr fun x hx => decide_eq_true (harena x hx)
  have hclasses := perm_flatMap_classes ArenaBlock.arena nodes initialArenas
  rw [hall] at hclasses
  exact ((List.Perm.flatMap_left _ fun a _ => htrees a).trans hclasses).trans
    (h.scannedNodes_perm.append_right _)

/-- **The pool of page runs is exact** unless the log loop has completed the free of a block. -/
theorem pagePoolExact_iff (h : Recovered P L p₀ img w₀ w) :
    PagePoolExact w ↔ ¬ FreesLoggedBlock img := by
  have hperm := h.allPageruns_perm
  constructor
  · rintro hexact ⟨p, hnamed, hst⟩
    have hlen := (hexact.symm.trans hperm).length_eq
    rw [List.length_append] at hlen
    have hnil : (redoneBefore L p₀ P.nvmStart img maxLogEntries).pages = [] :=
      List.length_eq_zero_iff.mp (by omega)
    have hmem : blockNode img.mem p ∈ (redoneBefore L p₀ P.nvmStart img maxLogEntries).pages :=
      h.inv.redone_pages.mpr ⟨p, hnamed, hst, rfl⟩
    rw [hnil] at hmem
    exact absurd hmem (by simp)
  · intro hno
    have hnil : (redoneBefore L p₀ P.nvmStart img maxLogEntries).pages = [] := by
      refine List.eq_nil_iff_forall_not_mem.mpr fun x hx => ?_
      obtain ⟨p, hnamed, hst, -⟩ := h.inv.redone_pages.mp hx
      exact hno ⟨p, hnamed, hst⟩
    rw [hnil, List.append_nil] at hperm
    exact hperm

end Recovered

end

instance (img : Nvm) : Decidable (FreesLoggedBlock img) :=
  decidable_of_iff (∃ i < maxLogEntries, img.log i ≠ 0 ∧
      field img.mem (4096 * (img.log i / 4096)) stateF = usageBlock + stateFreeing)
    ⟨fun ⟨i, hi, hne, hst⟩ => ⟨_, ⟨i, hi, hne, rfl⟩, hst⟩,
      fun ⟨_, ⟨i, hi, hne, hp⟩, hst⟩ => ⟨i, hi, hne, hp ▸ hst⟩⟩

/-- **The recovered pool of page runs is exact** precisely when no log entry names a block that was being
freed at the crash. -/
theorem page_pool_exact_iff {P P' : Process} {img : Nvm} {w : World} (himg : CrashImage P img)
    (hout : ReplayOutside img) (hrec : RecoversHeap P' img w) :
    PagePoolExact w ↔ ¬ FreesLoggedBlock img := by
  obtain ⟨L, p₀, hinv⟩ := exists_imgInv himg
  obtain ⟨w₀, hrecovered⟩ := exists_recovered hinv (hout.wordsClear hinv) hrec
  exact hrecovered.pagePoolExact_iff

/-- Between two calls no block is being freed. -/
theorem page_pool_exact_between_calls : ∃ s w, Reachable sampleProcess s ∧
    RecoversHeap sampleProcess s.w.nvm w ∧ PagePoolExact w := by
  have hany : ((sampleHistory
      [.reserve 0 5000, .activate 4186176 none none]).any fun s =>
      decide (¬ FreesLoggedBlock s.w.nvm)) = true := by
    decide +kernel
  obtain ⟨s, hs, htest⟩ := Process.exists_reachable hany
  obtain ⟨himg, hout, w, hrec⟩ := hs.recovers sampleProcess
  exact ⟨s, w, hs, hrec, (page_pool_exact_iff himg hout hrec).mpr (of_decide_eq_true htest)⟩

/-- A free with a link. -/
def freeWithLink (ptr : ℕ) : Op := .free ptr (some ⟨ptr, 0⟩) none

/-- Evaluation of a history after which such a free is cut. -/
theorem exists_cutFree {ops : List Op} {ptr : ℕ} {q : Nvm → Prop} [DecidablePred q]
    (h : ((sampleHistory ops).any fun s =>
      decide ((freeWithLink ptr).Valid s ∧ ¬ StaleLink s.w ptr (some ⟨ptr, 0⟩) none) &&
        (cuts (freeWithLink ptr).prog s.w).any fun img => decide (ReplayOutside img ∧ q img)) = true) :
    ∃ s img w, Reachable sampleProcess s ∧ (freeWithLink ptr).Valid s ∧
      img ∈ cuts (freeWithLink ptr).prog s.w ∧ ReplayOutside img ∧ q img ∧
      RecoversHeap sampleProcess img w := by
  obtain ⟨s, hs, htest⟩ := Process.exists_reachable h
  obtain ⟨hcall, hcut⟩ := Bool.and_eq_true_iff.mp htest
  obtain ⟨hvalid, hstale⟩ := of_decide_eq_true hcall
  obtain ⟨img, himg, htest⟩ := List.any_eq_true.mp hcut
  obtain ⟨hout, hq⟩ := of_decide_eq_true htest
  obtain ⟨L, p₀, hinv, -, hblames⟩ := crashOk_of_cut hs hvalid himg
  obtain ⟨w, hrec⟩ := hblames.exists_recoversHeap (P := sampleProcess) hinv id id id hstale
  exact ⟨s, img, w, hs, hvalid, himg, hout, hq, hrec⟩

/-- The free of a block with a link is cut after its commit: the log loop completes it and inserts the
block, and the thread inserts it again. -/
theorem page_pool_doubles_freed_block : ∃ s img w, Reachable sampleProcess s ∧
    (freeWithLink 4186176).Valid s ∧ img ∈ cuts (freeWithLink 4186176).prog s.w ∧
    RecoversHeap sampleProcess img w ∧ ¬ PagePoolExact w := by
  have hany : ((sampleHistory
      [.reserve 0 5000, .activate 4186176 none none]).any fun s =>
      decide ((freeWithLink 4186176).Valid s ∧ ¬ StaleLink s.w 4186176 (some ⟨4186176, 0⟩) none) &&
        (cuts (freeWithLink 4186176).prog s.w).any fun img =>
          decide (ReplayOutside img ∧ FreesLoggedBlock img)) = true := by
    decide +kernel
  obtain ⟨s, img, w, hs, hvalid, himg, hout, hfrees, hrec⟩ := exists_cutFree hany
  obtain ⟨L, p₀, hinv⟩ := exists_imgInv (.call hs hvalid himg)
  obtain ⟨w₀, hrecovered⟩ := exists_recovered hinv (hout.wordsClear hinv) hrec
  exact ⟨s, img, w, hs, hvalid, himg, hrec,
    fun hexact => hrecovered.pagePoolExact_iff.mp hexact hfrees⟩

/-! ## Free chunks -/

/-- The nodes of `free_chunks` that overlap the `n` chunks from chunk `c` on. -/
def nodesOver (w : World) (c n : ℕ) : List Huge :=
  w.freeChunks.toList.filter fun x =>
    ¬ Apart x.nvmChunk (x.nChunks * chunkSize) (4194304 * c) (n * chunkSize)

/-- Every region of chunks that is neither an arena chunk nor an activated huge object is covered by one
node of the right size. -/
def ChunkPoolComplete (w : World) : Prop :=
  ∀ c ∈ chunkHeaders w.nvm, usageAt w.nvm.mem (1024 * c) ≠ usageArena →
    field w.nvm.mem (4194304 * c) stateF ≠ usageHuge + stateInitialized →
    nodesOver w c (field w.nvm.mem (4194304 * c) nChunksF) =
      [⟨4194304 * c, field w.nvm.mem (4194304 * c) nChunksF⟩]

/-- Every huge region is activated, or the log leads to the call that was activating or freeing it. -/
def HugeRegionsLogged (img : Nvm) : Prop :=
  ∀ c ∈ chunkHeaders img, usageAt img.mem (1024 * c) ≠ usageArena →
    field img.mem (4194304 * c) stateF = usageHuge + stateInitialized ∨
      NamedBefore img maxLogEntries (1024 * c) ∧
        (field img.mem (4194304 * c) stateF = usageHuge + stateActivating ∨
          field img.mem (4194304 * c) stateF = usageHuge + stateFreeing)

section

variable {P : Process} {L : Layout} {p₀ p c : ℕ} {img : Nvm} {w₀ w : World}

/-- The log loop completes the free of at most one huge region. -/
theorem ImgInv.redone_chunk (h : ImgInv L p₀ img) {nvmStart : ℕ}
    (hnamed : NamedBefore img maxLogEntries p)
    (hst : field img.mem (4096 * p) stateF = usageHuge + stateFreeing) :
    (redoneBefore L p₀ nvmStart img maxLogEntries).chunks = [hugeNode img.mem p] := by
  have hpend : Pending img.mem p := pending_of_freeing (Or.inr hst)
  rcases h.redone_cases nvmStart with ⟨t, -, -, hredo, honly⟩ | ⟨-, hnone⟩
  · obtain rfl := honly p hnamed hpend
    rw [hredo]
    exact if_pos hst
  · exact absurd hpend (hnone p hnamed)

namespace Recovered

/-- The huge regions, before and after recovery. -/
theorem mem_chunkHeaders (h : Recovered P L p₀ img w₀ w) :
    (c ∈ chunkHeaders img ∧ usageAt img.mem (1024 * c) ≠ usageArena ↔
      ∃ n o, L (1024 * c) = some (.huge n o)) ∧
    (c ∈ chunkHeaders w.nvm ∧ usageAt w.nvm.mem (1024 * c) ≠ usageArena ↔
      ∃ n o, L (1024 * c) = some (.huge n o)) := by
  have hiff : ∀ {nvm : Nvm}, Aligned L nvm.mem nvm.nextChunk →
      (c ∈ chunkHeaders nvm ∧ usageAt nvm.mem (1024 * c) ≠ usageArena ↔
        ∃ n o, L (1024 * c) = some (.huge n o)) := by
    intro nvm ha
    rw [ha.chunkHeaders.2 c]
    constructor
    · rintro ⟨hsome, husage⟩
      obtain ⟨t, ht⟩ := Option.isSome_iff_exists.mp hsome
      rcases ha.chunk_tile ht with rfl | ⟨n, o, rfl⟩
      · exact absurd (((ha.hdr ht).usage (by simp)).1.mpr rfl) husage
      · exact ⟨n, o, ht⟩
    · rintro ⟨n, o, ht⟩
      refine ⟨by rw [ht]; rfl, fun husage => ?_⟩
      exact absurd (((ha.hdr ht).usage (by simp)).1.mp husage) (by simp)
  exact ⟨hiff ⟨h.inv.ok, h.inv.hdr, h.unstuck⟩, hiff h.aligned⟩

/-- What recovery makes of the state of a huge region. -/
theorem huge_activated_iff (h : Recovered P L p₀ img w₀ w) {n : ℕ} {o : Owner}
    (hc : L (1024 * c) = some (.huge n o)) :
    field w.nvm.mem (4194304 * c) stateF = usageHuge + stateInitialized ↔
      field img.mem (4194304 * c) stateF = usageHuge + stateInitialized ∨
        NamedBefore img maxLogEntries (1024 * c) ∧
          field img.mem (4194304 * c) stateF = usageHuge + stateActivating := by
  have hstate := h.state_eq hc (by simp)
  have hst := (h.inv.hdr hc).2
  rw [show 4096 * (1024 * c) = 4194304 * c by omega] at hstate hst
  rw [hstate]
  simp only [List.mem_cons, List.not_mem_nil, or_false] at hst
  by_cases hnamed : NamedBefore img maxLogEntries (1024 * c)
  · simp only [if_pos hnamed, and_iff_right hnamed]
    rcases hst with hst | hst | hst | hst | hst <;> rw [hst] <;> decide
  · rw [if_neg hnamed]
    exact ⟨Or.inl, fun hor => hor.resolve_right fun hand => hnamed hand.1⟩

/-- **The pool of chunks is complete** when every huge region is activated or logged. -/
theorem chunkPoolComplete_iff (h : Recovered P L p₀ img w₀ w) :
    ChunkPoolComplete w ↔ HugeRegionsLogged img := by
  have hchunks : w.freeChunks.toList.Perm (redoneBefore L p₀ P.nvmStart img maxLogEntries).chunks := by
    rw [h.scan.freeChunks]
    exact h.log.chunks
  constructor
  · intro hcomplete c hc husage
    obtain ⟨n, o, ht⟩ := h.mem_chunkHeaders.1.mp ⟨hc, husage⟩
    obtain ⟨hc', husage'⟩ := h.mem_chunkHeaders.2.mpr ⟨n, o, ht⟩
    by_cases hactive : field w.nvm.mem (4194304 * c) stateF = usageHuge + stateInitialized
    · rcases (h.huge_activated_iff ht).mp hactive with hst | ⟨hnamed, hst⟩
      · exact Or.inl hst
      · exact Or.inr ⟨hnamed, Or.inl hst⟩
    · -- the node comes from the log loop
      have hnodes := hcomplete c hc' husage' hactive
      have hmem : (⟨4194304 * c, field w.nvm.mem (4194304 * c) nChunksF⟩ : Huge) ∈
          nodesOver w c (field w.nvm.mem (4194304 * c) nChunksF) := by
        rw [hnodes]
        exact List.mem_singleton_self _
      have hredone := hchunks.mem_iff.mp (List.mem_filter.mp hmem).1
      obtain ⟨p, hnamed, hst, hnode⟩ := h.inv.redone_chunks.mp hredone
      have haddr : 4194304 * c = 4096 * p := congrArg Huge.nvmChunk hnode
      obtain rfl : p = 1024 * c := by omega
      rw [show 4096 * (1024 * c) = 4194304 * c by omega] at hst
      exact Or.inr ⟨hnamed, Or.inr hst⟩
  · intro hlogged c hc husage hactive
    obtain ⟨n, o, ht⟩ := h.mem_chunkHeaders.2.mp ⟨hc, husage⟩
    obtain ⟨hc', husage'⟩ := h.mem_chunkHeaders.1.mpr ⟨n, o, ht⟩
    have haddr : 4096 * (1024 * c) = 4194304 * c := by omega
    rcases hlogged c hc' husage' with hst | ⟨hnamed, hst | hst⟩
    · exact absurd ((h.huge_activated_iff ht).mpr (Or.inl hst)) hactive
    · exact absurd ((h.huge_activated_iff ht).mpr (Or.inr ⟨hnamed, hst⟩)) hactive
    · have hn : field w.nvm.mem (4194304 * c) nChunksF = n := haddr ▸ (h.aligned.hdr ht).1
      have hn₀ : field img.mem (4096 * (1024 * c)) nChunksF = n := (h.inv.hdr ht).1
      rw [h.inv.redone_chunk hnamed (haddr ▸ hst), hugeNode, hn₀, haddr] at hchunks
      have hpos := h.inv.ok.len_pos ht
      rw [Tile.len_huge] at hpos
      unfold nodesOver
      rw [List.perm_singleton.mp hchunks, hn, List.filter_cons, List.filter_nil, if_pos]
      refine decide_eq_true ?_
      unfold Apart
      simp only [chunkSize]
      omega

end Recovered

end

instance (img : Nvm) : Decidable (HugeRegionsLogged img) :=
  inferInstanceAs (Decidable (∀ c ∈ chunkHeaders img, usageAt img.mem (1024 * c) ≠ usageArena → _))

/-- **The recovered pool of chunks is complete** precisely when every huge region was activated, or was
being activated or freed by a call that the log leads to. -/
theorem chunk_pool_complete_iff {P P' : Process} {img : Nvm} {w : World} (himg : CrashImage P img)
    (hout : ReplayOutside img) (hrec : RecoversHeap P' img w) :
    ChunkPoolComplete w ↔ HugeRegionsLogged img := by
  obtain ⟨L, p₀, hinv⟩ := exists_imgInv himg
  obtain ⟨w₀, hrecovered⟩ := exists_recovered hinv (hout.wordsClear hinv) hrec
  exact hrecovered.chunkPoolComplete_iff

/-- The free of a huge region with a link is cut after its commit: the log loop completes it, and beside
the other, activated region nothing is lost. -/
theorem chunk_pool_complete_freed : ∃ s img w, Reachable sampleProcess s ∧
    img ∈ cuts (freeWithLink 83886144).prog s.w ∧
    field img.mem 83886080 stateF = usageHuge + stateFreeing ∧
    RecoversHeap sampleProcess img w ∧ ChunkPoolComplete w := by
  have hany : ((sampleHistory [.reserve 0 3000000, .activate 83886144 none none, .reserve 0 3000000,
      .activate 88080448 none none]).any fun s =>
      decide ((freeWithLink 83886144).Valid s ∧ ¬ StaleLink s.w 83886144 (some ⟨83886144, 0⟩) none) &&
        (cuts (freeWithLink 83886144).prog s.w).any fun img =>
          decide (ReplayOutside img ∧ field img.mem 83886080 stateF = usageHuge + stateFreeing ∧
            HugeRegionsLogged img)) = true := by
    decide +kernel
  obtain ⟨s, img, w, hs, hvalid, himg, hout, ⟨hst, hlogged⟩, hrec⟩ := exists_cutFree hany
  exact ⟨s, img, w, hs, himg, hst, hrec,
    (chunk_pool_complete_iff (.call hs hvalid himg) hout hrec).mpr hlogged⟩

/-- A huge region that is reserved but not activated at the crash is lost. -/
theorem chunk_pool_loses_reserved : ∃ s w, Reachable sampleProcess s ∧
    CrashImage sampleProcess s.w.nvm ∧ RecoversHeap sampleProcess s.w.nvm w ∧
    ¬ ChunkPoolComplete w := by
  have hany : ((sampleHistory [.reserve 0 3000000]).any fun s =>
      decide (¬ HugeRegionsLogged s.w.nvm)) = true := by
    decide +kernel
  obtain ⟨s, hs, htest⟩ := Process.exists_reachable hany
  obtain ⟨himg, hout, w, hrec⟩ := hs.recovers sampleProcess
  obtain ⟨L, p₀, hinv⟩ := exists_imgInv himg
  obtain ⟨w₀, hrecovered⟩ := exists_recovered hinv (hout.wordsClear hinv) hrec
  exact ⟨s, w, hs, himg, hrec,
    fun hcomplete => of_decide_eq_true htest (hrecovered.chunkPoolComplete_iff.mp hcomplete)⟩

end NvmMalloc
